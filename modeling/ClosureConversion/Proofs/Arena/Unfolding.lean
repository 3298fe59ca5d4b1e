import ClosureConversion.Proofs.Arena.Paths
import ClosureConversion.Proofs.Walks

/-!
# Code shown by an arena

An arena shows code at a block if the items of that block and of every block nested in it are those
of the code (`Arena.Shows`). The relation is flat: it compares lists block by block and follows no
links. If no nested block occurs twice, what is shown is what unfolding finds (`Shows.code_eq`), and
behind every instruction stands what the code has there (`Shows.codeFrom_eq`).

`Arena.Reaches` are the blocks that the entry leads to. They are the blocks of the code shown at the
entry (`Shows.reaches_iff`).
-/

namespace ClosureConversion

/-! ## Blocks of code -/

namespace Code

/-- The instructions of a block itself. -/
def heads : Code → List Item
  | .done => []
  | .op id ident o rest => ⟨id, ident, .op o⟩ :: rest.heads
  | .fn id ident params blk _ rest => ⟨id, ident, .fn params blk⟩ :: rest.heads
  | .branch id ident cond yesBlk noBlk _ _ rest =>
    ⟨id, ident, .branch cond yesBlk noBlk⟩ :: rest.heads

/-- The blocks that the instructions of a block hold, each with its code. -/
def children : Code → List (BlockId × Code)
  | .done => []
  | .op _ _ _ rest => rest.children
  | .fn _ _ _ blk body rest => (blk, body) :: rest.children
  | .branch _ _ _ yesBlk noBlk yes no rest => (yesBlk, yes) :: (noBlk, no) :: rest.children

/-- The blocks nested in a block, at any depth, each with its code. -/
def nested : Code → List (BlockId × Code)
  | .done => []
  | .op _ _ _ rest => rest.nested
  | .fn _ _ _ blk body rest => ((blk, body) :: body.nested) ++ rest.nested
  | .branch _ _ _ yesBlk noBlk yes no rest =>
    (((yesBlk, yes) :: yes.nested) ++ ((noBlk, no) :: no.nested)) ++ rest.nested

/-- A block and the blocks nested in it. -/
def blocks (blk : BlockId) (c : Code) : List (BlockId × Code) := (blk, c) :: c.nested

/-- A block that code holds is nested in it, with everything nested in that block. -/
theorem blocks_sublist_nested {c : Code} {x : BlockId × Code} (h : x ∈ c.children) :
    (x.2.blocks x.1).Sublist c.nested := by
  induction c with
  | done => exact absurd h List.not_mem_nil
  | op id ident o rest ih => exact ih h
  | fn id ident params blk body rest _ ih =>
      rcases List.mem_cons.mp h with rfl | h
      · exact List.sublist_append_left _ _
      · exact (ih h).trans (List.sublist_append_right _ _)
  | branch id ident cond yesBlk noBlk yes no rest _ _ ih =>
      rcases List.mem_cons.mp h with rfl | h
      · exact (List.sublist_append_left _ _).trans (List.sublist_append_left _ _)
      rcases List.mem_cons.mp h with rfl | h
      · exact (List.sublist_append_right _ _).trans (List.sublist_append_left _ _)
      · exact (ih h).trans (List.sublist_append_right _ _)

/-- Whatever is nested in code is nested in one of the blocks that its instructions hold. -/
theorem exists_child_of_mem_nested {c : Code} {x : BlockId × Code} (h : x ∈ c.nested) :
    ∃ y ∈ c.children, x ∈ y.2.blocks y.1 := by
  induction c with
  | done => exact absurd h List.not_mem_nil
  | op id ident o rest ih => exact ih h
  | fn id ident params blk body rest _ ih =>
      rcases List.mem_append.mp h with h | h
      · exact ⟨_, List.mem_cons_self, h⟩
      · obtain ⟨y, hy, hx⟩ := ih h
        exact ⟨y, List.mem_cons_of_mem _ hy, hx⟩
  | branch id ident cond yesBlk noBlk yes no rest _ _ ih =>
      rcases List.mem_append.mp h with h | h
      · rcases List.mem_append.mp h with h | h
        · exact ⟨_, List.mem_cons_self, h⟩
        · exact ⟨_, List.mem_cons_of_mem _ List.mem_cons_self, h⟩
      · obtain ⟨y, hy, hx⟩ := ih h
        exact ⟨y, List.mem_cons_of_mem _ (List.mem_cons_of_mem _ hy), hx⟩

/-- What holds of a block, and of the blocks held by a block of which it holds, holds of all blocks
nested in it. -/
theorem blocks_induction {c : Code} {blk : BlockId} {P : BlockId × Code → Prop} (h : P (blk, c))
    (hchild : ∀ x, P x → ∀ y ∈ x.2.children, P y) : ∀ x ∈ c.blocks blk, P x := by
  induction hn : c.nested.length using Nat.strong_induction_on generalizing c blk with
  | _ n ih =>
      intro x hx
      rcases List.mem_cons.mp hx with rfl | hx
      · exact h
      · obtain ⟨y, hy, hx⟩ := exists_child_of_mem_nested hx
        have hlen : y.2.nested.length < n := by
          have := (blocks_sublist_nested hy).length_le
          simp only [blocks, List.length_cons] at this
          omega
        exact ih _ hlen (hchild _ h y hy) rfl x hx

/-- What is nested in a block of code is nested in the code. -/
theorem nested_sublist_of_mem_blocks {c : Code} {blk : BlockId} :
    ∀ x ∈ c.blocks blk, x.2.nested.Sublist c.nested :=
  blocks_induction (List.Sublist.refl _) fun _ hx _ hy =>
    ((List.sublist_cons_self _ _).trans (blocks_sublist_nested hy)).trans hx

/-- The blocks of a block of code are blocks of the code. -/
theorem blocks_subset_of_mem_blocks {c : Code} {blk : BlockId} {x : BlockId × Code}
    (hx : x ∈ c.blocks blk) : x.2.blocks x.1 ⊆ c.blocks blk := by
  intro y hy
  rcases List.mem_cons.mp hy with rfl | hy
  · exact hx
  · exact List.mem_cons_of_mem _ ((nested_sublist_of_mem_blocks x hx).subset hy)

/-- What a block of code holds is a block of the code. -/
theorem child_mem_blocks {c : Code} {blk : BlockId} {x y : BlockId × Code} (hx : x ∈ c.blocks blk)
    (hy : y ∈ x.2.children) : y ∈ c.blocks blk := by
  have hmem : y ∈ x.2.nested := (blocks_sublist_nested hy).subset List.mem_cons_self
  exact blocks_subset_of_mem_blocks hx (List.mem_cons_of_mem _ hmem)

/-- Records put together are the code with these items, if what they hold unfolds to what the code
holds. -/
theorem assemble_eq {body : Name → BlockId → Except Fault Code} {branch : BlockId → Except Fault Code}
    {c : Code} {l : List (RecordId × Record)} (hl : l.map (fun x => x.2.item x.1) = c.heads)
    (hbody : ∀ x ∈ c.children, ∀ ident, body ident x.1 = .ok x.2)
    (hbranch : ∀ x ∈ c.children, branch x.1 = .ok x.2) : assemble body branch l = .ok c := by
  induction c generalizing l with
  | done =>
      rw [List.map_eq_nil_iff.mp hl]
      rfl
  | op id ident o rest ih =>
      obtain ⟨⟨_, _, _, prev, next⟩, l', rfl, hx, hl'⟩ := List.map_eq_cons_iff.mp hl
      obtain ⟨rfl, rfl, rfl⟩ := Item.mk.inj hx
      simp only [assemble, ih hl' hbody hbranch]
      rfl
  | fn id ident params blk inner rest _ ih =>
      obtain ⟨⟨_, _, _, prev, next⟩, l', rfl, hx, hl'⟩ := List.map_eq_cons_iff.mp hl
      obtain ⟨rfl, rfl, rfl⟩ := Item.mk.inj hx
      have hrest := ih hl' (fun x hx => hbody x (List.mem_cons_of_mem _ hx))
        fun x hx => hbranch x (List.mem_cons_of_mem _ hx)
      have hinner := hbody (blk, inner) List.mem_cons_self
      simp only [assemble, hinner, hrest]
      rfl
  | branch id ident cond yesBlk noBlk yes no rest _ _ ih =>
      obtain ⟨⟨_, _, _, prev, next⟩, l', rfl, hx, hl'⟩ := List.map_eq_cons_iff.mp hl
      obtain ⟨rfl, rfl, rfl⟩ := Item.mk.inj hx
      have hrest := ih hl'
        (fun x hx => hbody x (List.mem_cons_of_mem _ (List.mem_cons_of_mem _ hx)))
        fun x hx => hbranch x (List.mem_cons_of_mem _ (List.mem_cons_of_mem _ hx))
      have hyes := hbranch (yesBlk, yes) List.mem_cons_self
      have hno := hbranch (noBlk, no) (List.mem_cons_of_mem _ List.mem_cons_self)
      simp only [assemble, hyes, hno, hrest]
      rfl

/-- Records put together stay together if what they hold unfolds to the same. -/
theorem assemble_mono {body body' : Name → BlockId → Except Fault Code}
    {branch branch' : BlockId → Except Fault Code} {l : List (RecordId × Record)} {c : Code}
    (h : assemble body branch l = .ok c)
    (hbody : ∀ ident blk c, body ident blk = .ok c → body' ident blk = .ok c)
    (hbranch : ∀ blk c, branch blk = .ok c → branch' blk = .ok c) :
    assemble body' branch' l = .ok c := by
  induction l generalizing c with
  | nil => exact h
  | cons x rest ih =>
      obtain ⟨id, ident, rhs, prev, next⟩ := x
      cases rhs with
      | op o =>
          obtain ⟨tail, htail, hc⟩ := bind_eq_ok h
          simp only [assemble, ih htail]
          exact hc
      | fn params blk =>
          obtain ⟨inner, hinner, h⟩ := bind_eq_ok h
          obtain ⟨tail, htail, hc⟩ := bind_eq_ok h
          simp only [assemble, hbody _ _ _ hinner, ih htail]
          exact hc
      | branch cond yes no =>
          obtain ⟨y, hy, h⟩ := bind_eq_ok h
          obtain ⟨n, hn, h⟩ := bind_eq_ok h
          obtain ⟨tail, htail, hc⟩ := bind_eq_ok h
          simp only [assemble, hbranch _ _ hy, hbranch _ _ hn, ih htail]
          exact hc

end Code

/-! ## Code shown by an arena -/

namespace Arena

variable {a : Arena} {blk : BlockId} {c : Code}

/-- The body of a literal is entered in the same way with fewer bodies around it. -/
theorem enterBody_mono {unfold unfold' : List BlockId → BlockId → Except Fault Code}
    {active active' : List BlockId} {ident : Name}
    (h : Code.enterBody unfold active ident blk = .ok c) (ha : active' ⊆ active)
    (hu : ∀ {active active' blk c}, unfold active blk = .ok c → active' ⊆ active →
      unfold' active' blk = .ok c) : Code.enterBody unfold' active' ident blk = .ok c := by
  unfold Code.enterBody at h ⊢
  split at h
  next => cases h
  next hblk =>
    rw [if_neg fun hmem => hblk (ha hmem)]
    exact hu h (List.cons_subset_cons blk ha)

/-- A block unfolds in the same way with more fuel and fewer bodies around it. -/
theorem unfold_mono {fuel fuel' : Nat} {active active' : List BlockId}
    (h : a.unfold fuel active blk = .ok c) (hf : fuel ≤ fuel') (ha : active' ⊆ active) :
    a.unfold fuel' active' blk = .ok c := by
  induction fuel generalizing fuel' active active' blk c with
  | zero => cases h
  | succ fuel ih =>
      obtain ⟨fuel', rfl⟩ := Nat.exists_eq_add_of_lt hf
      obtain ⟨bounds, hblock, h⟩ := bind_eq_ok h
      simp only [unfold, hblock]
      refine Code.assemble_mono h (fun ident blk c hc => ?_) fun blk c hc => ?_
      · exact enterBody_mono hc ha fun hc' ha' => ih hc' (by omega) ha'
      · exact ih hc (by omega) ha

/-- The blocks of code are blocks of the arena, with the same items. -/
def Shows (a : Arena) (blk : BlockId) (c : Code) : Prop :=
  ∀ x ∈ c.blocks blk, (∃ b, a.bounds? x.1 = some b) ∧ a.items x.1 = x.2.heads

namespace Shows

/-- An arena shows every block of code that it shows. -/
theorem of_mem_blocks (h : a.Shows blk c) {x : BlockId × Code} (hx : x ∈ c.blocks blk) :
    a.Shows x.1 x.2 :=
  fun y hy => h y (Code.blocks_subset_of_mem_blocks hx hy)

/-- Records put together are the code with these items, if `fuel` is enough to unfold the blocks
nested in it and none of them is entered already. -/
theorem assemble_eq {fuel : Nat} {active : List BlockId} {l : List (RecordId × Record)}
    (hu : ∀ {active : List BlockId} {blk : BlockId} {c : Code}, a.Shows blk c →
      c.nested.length < fuel → (c.nested.map (·.1)).Nodup → (∀ x ∈ c.nested, x.1 ∉ active) →
      a.unfold fuel active blk = .ok c)
    (h : ∀ x ∈ c.nested, a.Shows x.1 x.2) (hf : c.nested.length ≤ fuel)
    (hn : (c.nested.map (·.1)).Nodup) (ha : ∀ x ∈ c.nested, x.1 ∉ active)
    (hl : l.map (fun x => x.2.item x.1) = c.heads) :
    Code.assemble (Code.enterBody (a.unfold fuel) active) (a.unfold fuel active) l = .ok c := by
  have hsub : ∀ x ∈ c.children, (x.2.blocks x.1).Sublist c.nested := fun _ hx =>
    Code.blocks_sublist_nested hx
  have hnd : ∀ x ∈ c.children, x.1 ∉ x.2.nested.map (·.1) ∧ (x.2.nested.map (·.1)).Nodup := by
    intro x hx
    have hblocks := ((hsub x hx).map (·.1)).nodup hn
    exact List.nodup_cons.mp hblocks
  have hunfold : ∀ x ∈ c.children, ∀ active', (∀ y ∈ x.2.nested, y.1 ∉ active') →
      a.unfold fuel active' x.1 = .ok x.2 := by
    intro x hx active' ha'
    refine hu (h x ((hsub x hx).subset List.mem_cons_self)) ?_ (hnd x hx).2 ha'
    exact Nat.lt_of_lt_of_le (Nat.lt_succ_self _) ((hsub x hx).length_le.trans hf)
  have hold : ∀ x ∈ c.children, ∀ y ∈ x.2.nested, y.1 ∉ active := fun x hx y hy =>
    ha y ((hsub x hx).subset (List.mem_cons_of_mem _ hy))
  refine Code.assemble_eq hl ?_ ?_
  · intro x hx ident
    rw [Code.enterBody, if_neg (ha x ((hsub x hx).subset List.mem_cons_self))]
    refine hunfold x hx _ fun y hy => ?_
    rw [List.mem_cons, not_or]
    refine ⟨fun he => (hnd x hx).1 ?_, hold x hx y hy⟩
    exact List.mem_map.mpr ⟨y, hy, he⟩
  · exact fun x hx => hunfold x hx _ (hold x hx)

/-- Unfolding finds what is shown, if it may go as deep as there are nested blocks. -/
theorem unfold_eq {fuel : Nat} {active : List BlockId} (h : a.Shows blk c)
    (hf : c.nested.length < fuel) (hn : (c.nested.map (·.1)).Nodup)
    (ha : ∀ x ∈ c.nested, x.1 ∉ active) : a.unfold fuel active blk = .ok c := by
  induction fuel generalizing active blk c with
  | zero => exact absurd hf (Nat.not_lt_zero _)
  | succ fuel ih =>
      obtain ⟨⟨b, hb⟩, hitems⟩ := h _ List.mem_cons_self
      have hblock : a.requireBlock blk = .ok b := by
        rw [requireBlock, hb]
      simp only [unfold, hblock]
      exact assemble_eq ih (fun x hx => h.of_mem_blocks (List.mem_cons_of_mem _ hx))
        (Nat.le_of_lt_succ hf) hn ha hitems

/-- An arena has at least as many blocks as are nested in code that it shows. -/
theorem length_nested_le (h : a.Shows blk c) (hn : (c.nested.map (·.1)).Nodup) :
    c.nested.length ≤ a.numBlocks := by
  rw [← List.length_map (·.1)]
  refine length_le_numBlocks (fun blk' hblk' => ?_) hn
  obtain ⟨x, hx, rfl⟩ := List.mem_map.mp hblk'
  obtain ⟨⟨b, hb⟩, -⟩ := h x (List.mem_cons_of_mem _ hx)
  exact bounds?_lt hb

/-- The bound on the depth is enough to unfold code that is shown. -/
theorem length_nested_lt (h : a.Shows blk c) (hn : (c.nested.map (·.1)).Nodup) :
    c.nested.length < a.depthBound := by
  have hlen := h.length_nested_le hn
  unfold depthBound
  nlinarith

/-- A block is the code shown at it. -/
theorem code_eq (h : a.Shows blk c) (hn : (c.nested.map (·.1)).Nodup) : a.code blk = .ok c :=
  h.unfold_eq (h.length_nested_lt hn) hn fun _ _ => List.not_mem_nil

/-- Behind an instruction stands what the code has there. -/
theorem codeFrom_eq (h : a.Shows blk c) (ho : a.Orderly) (hn : (c.nested.map (·.1)).Nodup)
    {pre : List Item} {i : Item} {rest : Code} (hi : c.heads = pre ++ i :: rest.heads)
    (hrest : rest.nested.Sublist c.nested) :
    ∃ r next, a.record? i.id = some r ∧ r.next = some next ∧ a.codeFrom next = .ok rest := by
  obtain ⟨-, hitems⟩ := h _ List.mem_cons_self
  obtain ⟨r, next, r', hr, -, hnext, hr', hlist⟩ := ho.listFrom_next (hitems.trans hi)
  have hrecord : a.requireRecord next = .ok r' := by
    rw [requireRecord, hr']
  refine ⟨r, next, hr, hnext, ?_⟩
  simp only [codeFrom, hrecord]
  refine assemble_eq unfold_eq ?_ ?_ ((hrest.map _).nodup hn) (fun _ _ => List.not_mem_nil) hlist
  · exact fun x hx => h.of_mem_blocks (List.mem_cons_of_mem _ (hrest.subset hx))
  · exact hrest.length_le.trans (h.length_nested_lt hn).le

end Shows

/-- The entry of an arena unfolds to code. -/
structure Unfolds (a : Arena) (c : Code) : Prop where
  orderly : a.Orderly
  shows : a.Shows entry c
  nodup : (c.nested.map (·.1)).Nodup

/-- The blocks of the code that an arena unfolds to unfold to themselves. -/
theorem Unfolds.code_eq (h : a.Unfolds c) {x : BlockId × Code} (hx : x ∈ c.blocks entry) :
    a.code x.1 = .ok x.2 :=
  (h.shows.of_mem_blocks hx).code_eq
    (((Code.nested_sublist_of_mem_blocks x hx).map (·.1)).nodup h.nodup)

end Arena

/-! ## Reachable blocks -/

/-- The blocks that a right-hand side holds. -/
def Rhs.blocks : Rhs BlockId → List BlockId
  | .op _ => []
  | .fn _ body => [body]
  | .branch _ yes no => [yes, no]

/-- The blocks that code holds are those that its items hold. -/
theorem Code.map_fst_children (c : Code) :
    c.children.map (·.1) = c.heads.flatMap (·.rhs.blocks) := by
  induction c with
  | done => rfl
  | op id ident o rest ih => exact ih
  | fn id ident params blk body rest _ ih => exact congrArg (blk :: ·) ih
  | branch id ident cond yesBlk noBlk yes no rest _ _ ih =>
      exact congrArg (yesBlk :: noBlk :: ·) ih

namespace Arena

/-- The blocks that the entry leads to, through bodies of literals and through conditionals. -/
inductive Reaches (a : Arena) : BlockId → Prop where
  | entry : a.Reaches Arena.entry
  | step {blk blk' : BlockId} {i : Item} :
    a.Reaches blk → i ∈ a.items blk → blk' ∈ i.rhs.blocks → a.Reaches blk'

/-- The entry leads to the blocks of the code shown there. -/
theorem Shows.reaches_iff {a : Arena} {c : Code} (h : a.Shows entry c) {blk : BlockId} :
    a.Reaches blk ↔ ∃ d, (blk, d) ∈ c.blocks entry := by
  constructor
  · intro hr
    induction hr with
    | entry => exact ⟨c, List.mem_cons_self⟩
    | @step blk blk' i _ hi hb ih =>
        obtain ⟨d, hd⟩ := ih
        rw [(h _ hd).2] at hi
        have hmem : blk' ∈ d.children.map (·.1) := by
          rw [Code.map_fst_children]
          exact List.mem_flatMap.mpr ⟨i, hi, hb⟩
        obtain ⟨y, hy, rfl⟩ := List.mem_map.mp hmem
        exact ⟨y.2, Code.child_mem_blocks hd hy⟩
  · rintro ⟨d, hd⟩
    refine (Code.blocks_induction (P := fun x => x ∈ c.blocks entry ∧ a.Reaches x.1)
      ⟨List.mem_cons_self, .entry⟩ ?_ _ hd).2
    rintro x ⟨hx, hr⟩ y hy
    refine ⟨Code.child_mem_blocks hx hy, ?_⟩
    have hmem : y.1 ∈ x.2.heads.flatMap (·.rhs.blocks) := by
      rw [← Code.map_fst_children]
      exact List.mem_map_of_mem hy
    obtain ⟨i, hi, hb⟩ := List.mem_flatMap.mp hmem
    exact .step hr ((h x hx).2 ▸ hi) hb

end Arena

end ClosureConversion
