import ClosureConversion.Proofs.Arena.Scripts

/-!
# Reading an arena back

Whatever the order in which a nested block is brought into an arena, its entry reads back as that block.
Lowering fills the blocks of an instruction before it appends the instruction; a script appends first and
fills afterwards. The numbers differ, but in both cases each block is filled while all others stay as
they are.

`Arena.Filled` says that of any order: the instructions that a block has gained are those of some code,
the blocks nested in it are new, and forgetting its numbers gives the nested block. For lowering the
code is `Block.number` (`lower_lowered`); for scripts it is put together along the run (`run_filled`).
-/

namespace ClosureConversion

namespace Arena

variable {a a₁ a₂ : Arena} {blk inner : BlockId} {b : Bounds} {t : Block} {c : Code}

/-- `a'` is `a` with the instructions of code appended to `blk`. The code stands for the nested block
`t`, and the blocks nested in it are new. -/
structure Filled (t : Block) (blk : BlockId) (a a' : Arena) (c : Code) : Prop
    extends Extends blk a a' where
  erase : c.erase = t
  own : a'.items blk = a.items blk ++ c.heads
  fresh : ∀ x ∈ c.nested, a.bounds? x.1 = none
  nested : ∀ x ∈ c.nested, (∃ b, a'.bounds? x.1 = some b) ∧ a'.items x.1 = x.2.heads

/-- A block that does not exist is none that does. -/
theorem ne_of_bounds? {x y : BlockId} (hx : a.bounds? x = none) (hy : a.bounds? y = some b) :
    x ≠ y := by
  rintro rfl
  rw [hx] at hy
  cases hy

/-- What does not exist in the extension did not exist before. -/
theorem Extends.bounds_eq_none (h : Extends blk a a₁) {x : BlockId} (hx : a₁.bounds? x = none) :
    a.bounds? x = none := by
  cases hb : a.bounds? x with
  | none => rfl
  | some b =>
      rw [h.bounds hb] at hx
      cases hx

/-- The number of blocks is the number of no block. -/
theorem bounds?_numBlocks (a : Arena) : a.bounds? a.numBlocks = none :=
  Array.getElem?_eq_none (Nat.le_refl _)

/-- A new block extends the arena, at any place. -/
theorem extends_newBlock (hw : a.WellLinked) (blk : BlockId) : Extends blk a a.newBlock where
  linked := hw.newBlock
  bounds := by
    intro x b hx
    rw [bounds?_newBlock, if_neg (bounds?_lt hx).ne, hx]
  items := fun hx _ => hw.items_newBlock (bounds?_lt hx).ne

/-- An empty block of `a'` that `a` does not have yet. -/
structure Ready (a a' : Arena) (inner : BlockId) : Prop where
  new : a.bounds? inner = none
  inRange : ∃ b, a'.bounds? inner = some b
  empty : a'.items inner = []

/-- A new block is ready to be filled. -/
theorem ready_newBlock (hw : a.WellLinked) : Ready a a.newBlock a.numBlocks where
  new := a.bounds?_numBlocks
  inRange := ⟨_, by rw [bounds?_newBlock, if_pos rfl]⟩
  empty := hw.items_newBlock_self

/-- A block stays ready while another one is extended. -/
theorem Ready.keep (h : Ready a a₁ inner) (he : Extends blk a₁ a₂) (hne : inner ≠ blk) :
    Ready a a₂ inner := by
  obtain ⟨b, hb⟩ := h.inRange
  exact ⟨h.new, ⟨b, he.bounds hb⟩, (he.items hb hne).trans h.empty⟩

/-- What is new for an extension is new for the arena. -/
theorem Ready.of_extends (h : Ready a₁ a₂ inner) (he : Extends blk a a₁) : Ready a a₂ inner :=
  ⟨he.bounds_eq_none h.new, h.inRange, h.empty⟩

/-- Filling a block that is ready leaves everything that `a` has as it is. -/
theorem Filled.of_ready (h : Filled t inner a₁ a₂ c) (he : Extends blk a a₁)
    (hb : a.bounds? blk = some b) (hr : Ready a a₁ inner) :
    Extends blk a a₂ ∧ a₂.items blk = a₁.items blk ∧
      (∀ x ∈ c.blocks inner, a.bounds? x.1 = none) ∧
      ∀ x ∈ c.blocks inner, (∃ b, a₂.bounds? x.1 = some b) ∧ a₂.items x.1 = x.2.heads := by
  have hold : ∀ {x b}, a.bounds? x = some b → a₂.items x = a₁.items x := fun hx =>
    h.items (he.bounds hx) (ne_of_bounds? hr.new hx).symm
  refine ⟨⟨h.linked, fun hx => h.bounds (he.bounds hx), fun hx hne => ?_⟩, hold hb, ?_, ?_⟩
  · rw [hold hx, he.items hx hne]
  · intro x hx
    rcases List.mem_cons.mp hx with rfl | hx
    · exact hr.new
    · exact he.bounds_eq_none (h.fresh x hx)
  · intro x hx
    rcases List.mem_cons.mp hx with rfl | hx
    · obtain ⟨bounds, hbounds⟩ := hr.inRange
      refine ⟨⟨bounds, h.bounds hbounds⟩, ?_⟩
      rw [h.own, hr.empty, List.nil_append]
    · exact h.nested x hx

/-- The step for each instruction: it is in place, the blocks that it holds are filled, and then the rest
of the block is. -/
theorem Filled.of_rest {d rest : Block} {c' cr : Code} {i : Item} (filled : List (BlockId × Code))
    (hb : a.bounds? blk = some b) (he : Extends blk a a₁) (hown : a₁.items blk = a.items blk ++ [i])
    (hfresh : ∀ x ∈ filled, a.bounds? x.1 = none)
    (hfilled : ∀ x ∈ filled, (∃ b, a₁.bounds? x.1 = some b) ∧ a₁.items x.1 = x.2.heads)
    (h : Filled rest blk a₁ a₂ cr) (herase : c'.erase = d) (hheads : c'.heads = i :: cr.heads)
    (hnested : c'.nested = filled ++ cr.nested) : Filled d blk a a₂ c' where
  toExtends := he.trans h.toExtends
  erase := herase
  own := by rw [h.own, hown, hheads, List.append_assoc, List.singleton_append]
  fresh := by
    rw [hnested, List.forall_mem_append]
    exact ⟨hfresh, fun x hx => he.bounds_eq_none (h.fresh x hx)⟩
  nested := by
    rw [hnested, List.forall_mem_append]
    refine ⟨fun x hx => h.toExtends.shown (hfilled x hx) ?_, h.nested⟩
    exact ne_of_bounds? (hfresh x hx) hb

/-! ## Scripts -/

/-- A script fills the block it runs on. The induction follows the nested block: an instruction is
pushed when its blocks exist, and these are filled before the rest of the block is. -/
theorem run_filled (t : Block) {a : Arena} {blk : BlockId} {b : Bounds} (hw : a.WellLinked)
    (hb : a.bounds? blk = some b) : ∃ c, Filled t blk a ((Script.ofBlock t).run a blk).1 c := by
  induction t generalizing a blk b with
  | done =>
      refine ⟨.done, ⟨hw, fun hx => hx, fun _ _ => rfl⟩, rfl, (List.append_nil _).symm, ?_, ?_⟩
      · exact fun x hx => absurd hx List.not_mem_nil
      · exact fun x hx => absurd hx List.not_mem_nil
  | op ident o rest ih =>
      have hpush : Extends blk a (a.push blk ident (.op o)) := extends_push hw ident (.op o)
      obtain ⟨cr, hr⟩ := ih hpush.linked (hpush.bounds hb)
      refine ⟨.op a.records.size ident o cr, ?_⟩
      refine Filled.of_rest [] hb hpush (hw.items_push_self hb ident (.op o)) (by simp) (by simp) hr
        ?_ rfl rfl
      rw [Code.erase, hr.erase]
  | fn ident params body rest ihb ih =>
      have hnew := extends_newBlock hw blk
      have hpush : Extends blk _ _ := extends_push hnew.linked ident (.fn params a.numBlocks)
      have hne : a.numBlocks ≠ blk := (bounds?_lt hb).ne'
      have hready := (ready_newBlock hw).keep hpush hne
      obtain ⟨bounds, hbounds⟩ := hready.inRange
      obtain ⟨cb, hbody⟩ := ihb hpush.linked hbounds
      obtain ⟨he, hown, hfresh, hfilled⟩ := hbody.of_ready (hnew.trans hpush) hb hready
      obtain ⟨cr, hr⟩ := ih he.linked (he.bounds hb)
      refine ⟨.fn a.newBlock.records.size ident params a.numBlocks cb cr, ?_⟩
      refine Filled.of_rest (cb.blocks a.numBlocks) hb he ?_ hfresh hfilled hr ?_ rfl rfl
      · rw [hown, hnew.linked.items_push_self (hnew.bounds hb), hw.items_newBlock hne.symm]
      · rw [Code.erase, hbody.erase, hr.erase]
  | branch ident cond yes no rest ihy ihn ih =>
      have hfirst := extends_newBlock hw blk
      have hsecond := extends_newBlock hfirst.linked blk
      have hnew := hfirst.trans hsecond
      have hpush : Extends blk _ _ :=
        extends_push hnew.linked ident (.branch cond a.numBlocks (a.numBlocks + 1))
      have hlt : blk < a.numBlocks := bounds?_lt hb
      have hne : blk ≠ a.numBlocks + 1 := (hlt.trans (Nat.lt_succ_self _)).ne
      have hready := ((ready_newBlock hw).keep hsecond hlt.ne').keep hpush hlt.ne'
      have hready' := (ready_newBlock hfirst.linked).of_extends hfirst
      rw [numBlocks_newBlock] at hready'
      replace hready' := hready'.keep hpush hne.symm
      obtain ⟨bounds, hbounds⟩ := hready.inRange
      obtain ⟨cy, hyes⟩ := ihy hpush.linked hbounds
      obtain ⟨hey, howny, hfreshy, hfilledy⟩ := hyes.of_ready (hnew.trans hpush) hb hready
      -- the second block is still empty when the first one is filled
      have hstill := hready'.keep hyes.toExtends (Nat.succ_ne_self _)
      obtain ⟨bounds', hbounds'⟩ := hstill.inRange
      obtain ⟨cn, hno⟩ := ihn hey.linked hbounds'
      obtain ⟨hen, hownn, hfreshn, hfilledn⟩ := hno.of_ready hey hb hstill
      obtain ⟨cr, hr⟩ := ih hen.linked (hen.bounds hb)
      have hapart : ∀ x ∈ cy.blocks a.numBlocks, x.1 ≠ a.numBlocks + 1 := by
        intro x hx
        rcases List.mem_cons.mp hx with rfl | hx
        · exact (Nat.succ_ne_self _).symm
        · obtain ⟨b₁, hb₁⟩ := hready'.inRange
          exact ne_of_bounds? (hyes.fresh x hx) hb₁
      refine ⟨.branch a.newBlock.newBlock.records.size ident cond a.numBlocks (a.numBlocks + 1) cy cn
        cr, ?_⟩
      refine Filled.of_rest (cy.blocks a.numBlocks ++ cn.blocks (a.numBlocks + 1)) hb hen ?_
        (List.forall_mem_append.mpr ⟨hfreshy, hfreshn⟩)
        (List.forall_mem_append.mpr ⟨fun x hx => ?_, hfilledn⟩) hr ?_ rfl rfl
      · rw [← numBlocks_newBlock] at hne
        rw [hownn, howny, hnew.linked.items_push_self (hnew.bounds hb),
          hfirst.linked.items_newBlock hne, hw.items_newBlock hlt.ne]
      · exact hno.toExtends.shown (hfilledy x hx) (hapart x hx)
      · rw [Code.erase, hyes.erase, hno.erase, hr.erase]

/-- The script of a nested block is structured. -/
theorem structured_ofBlock (t : Block) : (Script.ofBlock t).Structured := by
  induction t with
  | done => trivial
  | op ident o rest ih => exact ⟨rfl, ih⟩
  | fn ident params body rest ihb ih => exact ⟨ihb, ih⟩
  | branch ident cond yes no rest ihy ihn ih => exact ⟨ihy, ihn, ih⟩

end Arena

/-- **Reading back.** A nested block that is lowered into an arena reads back from its entry, and so does
one that is issued instruction by instruction. -/
theorem erase_code_entry (t : Block) :
    ((Arena.ofBlock t).code Arena.entry).map Code.erase = .ok t ∧
      (((Script.ofBlock t).run Arena.empty Arena.entry).1.code Arena.entry).map Code.erase =
        .ok t := by
  constructor
  · rw [(Arena.ofBlock_unfolds t).code_eq List.mem_cons_self]
    exact congrArg Except.ok (t.erase_number 1 2)
  · obtain ⟨c, h⟩ := Arena.run_filled t Arena.WellLinked.empty Arena.bounds?_empty_entry
    have hshows : ((Script.ofBlock t).run Arena.empty Arena.entry).1.Shows Arena.entry c := by
      intro x hx
      rcases List.mem_cons.mp hx with rfl | hx
      · exact ⟨⟨_, h.bounds Arena.bounds?_empty_entry⟩, h.own⟩
      · exact h.nested x hx
    have htree := Arena.treeShaped_run (Arena.structured_ofBlock t)
    rw [hshows.code_eq (htree.nodup_nested .entry hshows)]
    exact congrArg Except.ok h.erase

end ClosureConversion
