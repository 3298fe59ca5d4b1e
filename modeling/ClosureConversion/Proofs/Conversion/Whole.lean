import ClosureConversion.Proofs.Conversion.Applied

/-!
# Conversion of whole programs

A classification that has everything on record about an arena can be applied to it, and the result is
the arena with all code converted (`Converts`). From there on the converted program is known block by
block: `Converts.code_eq` gives the code of the entry and of every function body.

The main result is that a converted program is closed, the entry over nothing and each function over
its parameters, its captures and, if it is a closure, its own name.
-/

namespace ClosureConversion

namespace Code

variable {c d : Code} {blk : BlockId} {x : BlockId × Code}

/-- The literals of a block of code are literals of the code. -/
theorem sites_subset_of_mem_blocks (hx : x ∈ c.blocks blk) : x.2.sites ⊆ c.sites := by
  intro s hs
  obtain ⟨y, hy, hs⟩ := (mem_sites_iff x.1).mp hs
  exact (mem_sites_iff blk).mpr ⟨y, blocks_subset_of_mem_blocks hx hy, hs⟩

/-- The calls of a block of code are calls of the code. -/
theorem calls_subset_of_mem_blocks (hx : x ∈ c.blocks blk) : x.2.calls ⊆ c.calls := by
  intro s hs
  obtain ⟨y, hy, hs⟩ := (mem_calls_iff x.1).mp hs
  exact (mem_calls_iff blk).mpr ⟨y, blocks_subset_of_mem_blocks hx hy, hs⟩

/-- The operations of a block that code holds are operations of the code. -/
theorem operations_subset_of_mem_children (hx : x ∈ c.children) :
    x.2.erase.operations ⊆ c.erase.operations := by
  induction c with
  | done => exact absurd hx List.not_mem_nil
  | op id ident o rest ih => exact fun o' ho => List.mem_cons_of_mem _ (ih hx ho)
  | fn id ident params blk body rest _ ih =>
      rcases List.mem_cons.mp hx with rfl | hx
      · exact List.subset_append_left _ _
      · exact fun o ho => List.mem_append_right _ (ih hx ho)
  | branch id ident cond yesBlk noBlk yes no rest _ _ ih =>
      rcases List.mem_cons.mp hx with rfl | hx
      · exact fun o ho => List.mem_append_left _ (List.mem_append_left _ ho)
      rcases List.mem_cons.mp hx with rfl | hx
      · exact fun o ho => List.mem_append_left _ (List.mem_append_right _ ho)
      · exact fun o ho => List.mem_append_right _ (ih hx ho)

/-- The operations of a block of code are operations of the code. -/
theorem operations_subset_of_mem_blocks :
    ∀ x ∈ c.blocks blk, x.2.erase.operations ⊆ c.erase.operations :=
  blocks_induction (fun _ h => h) fun _ hx _ hy _ ho =>
    hx (operations_subset_of_mem_children hy ho)

end Code

/-- Applying a classification that has all literals and calls of an arena on record. -/
structure Converts (a : Arena) (code : Code) (c : Classification) (p : Program) : Prop where
  unfolds : a.Unfolds code
  records : Records c.known [] code.sites code.calls .empty c
  supported : ∀ m ∈ code.literals, m.Supported c.known
  closures : p.closures = c.closures
  functions : p.functions = Classification.collect ∅ c.decisions.entries
  edited : Arena.Edited c.convertItem a p.arena

/-- Records of all literals and calls of code are about that code. -/
theorem Records.concerns {code : Code} {c : Classification}
    (h : Records c.known [] code.sites code.calls .empty c) : c.Concerns code where
  call := by
    intro id hid
    obtain ⟨callee, hc, -⟩ := h.exists_call hid
    exact ⟨callee, hc⟩
  decision := by
    intro id d hd
    obtain ⟨s, hs, hid, rfl⟩ := h.exists_site hd
    exact ⟨s.member, List.mem_map_of_mem hs, hid, rfl, rfl, rfl⟩

namespace Arena.Unfolds

variable {a : Arena} {code : Code}

/-- A classification with everything on record can be applied. -/
theorem exists_converts (h : a.Unfolds code) {c : Classification}
    (hr : Records c.known [] code.sites code.calls .empty c)
    (hsup : ∀ m ∈ code.literals, m.Supported c.known) :
    ∃ p, c.applyTo a = .ok p ∧ Converts a code c p := by
  obtain ⟨p, hp, ha⟩ := h.shows.exists_applied h.orderly hr.concerns
  exact ⟨p, hp, h, hr, hsup, ha.closures, ha.functions, ha.edited⟩

end Arena.Unfolds

/-- The body of a literal is one of the blocks. -/
theorem Code.body_mem_blocks {c : Code} (blk : BlockId) {m : Member} (hm : m ∈ c.literals) :
    (m.blk, m.body) ∈ c.blocks blk := by
  obtain ⟨s, hs, rfl⟩ := List.mem_map.mp hm
  obtain ⟨x, hx, hs⟩ := (mem_sites_iff blk).mp hs
  obtain ⟨pre, post, hat⟩ := exists_at hs
  exact child_mem_blocks hx hat.body

namespace Converts

variable {a : Arena} {code : Code} {c : Classification} {p : Program} {x : BlockId × Code}

/-- A conversion carries out its decisions. -/
theorem applied (h : Converts a code c p) : Applied a code c p :=
  ⟨h.unfolds.shows, h.records.concerns, h.closures, h.functions, h.edited⟩

/-- A call is on record exactly if its callee is not known: no other call has its record. -/
theorem contains_call (h : Converts a code c p) {id : RecordId} {callee : Name}
    (hc : (id, callee) ∈ code.calls) :
    c.closureCalls.contains id = true ↔ callee ∉ c.known := by
  constructor
  · intro hid
    obtain ⟨callee', hc', hout⟩ := h.records.exists_call hid
    obtain ⟨blk, ident, args, indirect, -, hi⟩ := h.unfolds.shows.exists_item_call hc
    obtain ⟨blk', ident', args', indirect', -, hi'⟩ := h.unfolds.shows.exists_item_call hc'
    have heq := congrArg Item.rhs (Arena.eq_of_id_eq hi hi' rfl)
    obtain ⟨rfl, -, -⟩ := Operation.app.inj (Rhs.op.inj heq)
    exact hout
  · exact fun hout => (h.records.calls id).mpr (.inr ⟨callee, hc, hout⟩)

/-- Every block of a converted source program is settled. -/
theorem settled (h : Converts a code c p) (hs : code.erase.IsSource)
    (hx : x ∈ code.blocks Arena.entry) : x.2.Settled c [] where
  decision := fun s hs => h.records.decision s (Code.sites_subset_of_mem_blocks hx hs)
  call := fun _ hy => h.contains_call (Code.calls_subset_of_mem_blocks hx hy)
  source := fun o ho => hs o (Code.operations_subset_of_mem_blocks x hx ho)

/-- The blocks of the program unfold to converted code. -/
theorem code_eq (h : Converts a code c p) (hx : x ∈ code.blocks Arena.entry) :
    p.arena.code x.1 = .ok (x.2.converted c) :=
  h.applied.code_eq h.unfolds.nodup hx

/-- The program has the literals of the code as its functions. -/
theorem contains_functions_iff (h : Converts a code c p) {f : Name} :
    p.functions.contains f = true ↔ ∃ m ∈ code.literals, m.ident = f := by
  constructor
  · intro hf
    obtain ⟨fn, hfn⟩ := Table.contains_iff.mp hf
    obtain ⟨m, hm, hident, -⟩ := h.applied.exists_literal hfn
    exact ⟨m, hm, hident⟩
  · rintro ⟨m, hm, rfl⟩
    obtain ⟨s, hs, rfl⟩ := List.mem_map.mp hm
    rw [h.functions, Classification.contains_collect]
    refine .inr ⟨(s.member.id, s.decision c.known), ?_, rfl⟩
    exact Table.mem_entries_iff.mpr (h.records.decision s hs)

/-- The decision on a name is the one on a literal of that name. -/
theorem exists_decision (h : Converts a code c p) {m : Member} (hm : m ∈ code.literals) :
    ∃ s ∈ code.sites, s.member.ident = m.ident ∧ c.decision? m.ident = some (s.decision c.known) := by
  obtain ⟨s, hs, rfl⟩ := List.mem_map.mp hm
  exact h.records.exists_decision hs

end Converts

/-! ## Closed programs -/

/-- The names that the body of a function may use: its parameters, its captures and, for a closure,
its own name. -/
def Program.scope (p : Program) (c : Classification) (f : Name) (fn : Function) : List Name :=
  fn.params ++ (p.closures.get? f).getD [] ++
    if (c.decision? f).map (·.standing) = some .closure then [f] else []

/-- The entry and the bodies of all functions are closed. -/
structure Program.Closed (p : Program) (c : Classification) : Prop where
  entry : ∃ code, p.arena.code Arena.entry = .ok code ∧ code.Closed []
  function : ∀ f fn, p.functions.get? f = some fn →
    ∃ code, p.arena.code fn.body = .ok code ∧ code.Closed (p.scope c f fn)

namespace Converts

variable {a : Arena} {code : Code} {c : Classification} {p : Program}

/-- What is free in the body of a literal is in scope there after conversion. -/
theorem mem_scope (h : Converts a code c p) {m : Member} (hm : m ∈ code.literals) {n : Name}
    (hn : m.body.IsFree c.known n) : n ∈ p.scope c m.ident ⟨m.params, m.blk⟩ := by
  rw [Program.scope, h.closures, List.mem_append, List.mem_append]
  by_cases hparam : n ∈ m.params
  · exact .inl (.inl hparam)
  have hfree : n ∈ m.freeNames c.known := Code.mem_bodyFreeNames.mpr ⟨hn, hparam⟩
  have hclosure : m.ident ∉ c.known := fun hk => h.supported m hm hk n hfree
  by_cases hself : n = m.ident
  · obtain ⟨s, -, hident, hd⟩ := h.exists_decision hm
    have hstanding : (c.decision? m.ident).map (·.standing) = some .closure := by
      rw [hd, Option.map_some, Site.decision, if_neg (hident ▸ hclosure)]
    rw [if_pos hstanding, hself]
    exact .inr (List.mem_singleton_self _)
  · obtain ⟨s, hs, rfl⟩ := List.mem_map.mp hm
    refine .inl (.inr ?_)
    rw [h.records.entry s hs, Site.entry?, if_neg (fun hk => hclosure hk.1), Option.getD_some,
      Member.captures, if_neg hclosure]
    exact NameSet.mem_erase.mpr ⟨hfree, hself⟩

/-- A converted source program without free names is closed. -/
theorem closed (h : Converts a code c p) (hs : code.erase.IsSource)
    (hfree : ∀ n, ¬code.IsFree c.known n) : p.Closed c where
  entry := by
    refine ⟨_, h.code_eq List.mem_cons_self, ?_⟩
    exact Code.converted_closed (h.settled hs List.mem_cons_self) fun n hn => absurd hn (hfree n)
  function := by
    intro f fn hf
    obtain ⟨m, hm, rfl, rfl⟩ := h.applied.exists_literal hf
    have hx := Code.body_mem_blocks Arena.entry hm
    exact ⟨_, h.code_eq hx, Code.converted_closed (h.settled hs hx) fun n hn => h.mem_scope hm hn⟩

end Converts

/-- The arena of a nested block can be classified and converted. -/
theorem Block.exists_converts {t : Block} (hu : t.UniqueLiterals)
    (hc : t.CallsInScope t.literalNames []) (optimize : Bool) :
    ∃ c p, (Arena.ofBlock t).classify optimize = .ok c ∧ c.applyTo (Arena.ofBlock t) = .ok p ∧
      Converts (Arena.ofBlock t) (t.number 1 2) c p := by
  have ha := Arena.ofBlock_unfolds t
  obtain ⟨p, hp, hconv⟩ := ha.exists_converts (t.classify_records hu hc optimize)
    (t.classify_progress hu hc optimize).sound
  exact ⟨_, p, ha.classify_eq optimize, hp, hconv⟩

/-- **Closed programs.** Conversion of a program in which every name is in scope succeeds, makes a
function of every literal, and leaves a closed program. -/
theorem convert_closed (t : Block) (optimize : Bool) (hs : t.IsSource) (hu : t.UniqueLiterals)
    (hn : t.NamesInScope []) :
    ∃ c p, (Arena.ofBlock t).classify optimize = .ok c ∧
      (Arena.ofBlock t).convert optimize = .ok p ∧
      (∀ f, p.functions.contains f = true ↔ f ∈ t.literalNames) ∧ p.Closed c := by
  have hc : t.CallsInScope t.literalNames [] := by
    refine hn.callsInScope (fun n ho hf => hu.not_mem_otherNames hf ho) ?_
    exact fun _ _ h => h
  obtain ⟨c, p, hclassify, hp, h⟩ := Block.exists_converts hu hc optimize
  have hconvert : (Arena.ofBlock t).convert optimize = .ok p := by
    rw [Arena.convert, hclassify]
    exact hp
  have herase : (t.number 1 2).erase = t := t.erase_number 1 2
  refine ⟨c, p, hclassify, hconvert, fun f => ?_, h.closed ?_ fun n hfree => ?_⟩
  · have hperm := (t.number 1 2).literalNames_perm
    rw [herase] at hperm
    rw [h.contains_functions_iff, hperm.mem_iff, List.mem_map]
  · exact herase.symm ▸ hs
  · have hscope : (t.number 1 2).erase.NamesInScope [] := herase.symm ▸ hn
    exact absurd (hfree.mem_scope hscope) List.not_mem_nil

/-- A program with nested literals is closed after conversion. -/
theorem convert_closed_sample :
    Block.sample.IsSource ∧ Block.sample.UniqueLiterals ∧ Block.sample.NamesInScope [] ∧
      ∃ c p, (Arena.ofBlock Block.sample).classify true = .ok c ∧
        (Arena.ofBlock Block.sample).convert true = .ok p ∧
        (∀ f, p.functions.contains f = true ↔ f ∈ Block.sample.literalNames) ∧ p.Closed c :=
  ⟨by decide, by decide, by decide,
    convert_closed Block.sample true (by decide) (by decide) (by decide)⟩

end ClosureConversion
