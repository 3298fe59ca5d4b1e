import ClosureConversion.Proofs.Verification

/-!
# When classification, conversion and verification fail

Classification fails on cycles only. If no cycle of conditionals alone is reachable from the entry, it
fails exactly if some cycle is, and what it reports is a body on a cycle: the explorer fails where
unfolding fails and with the same fault (`Arena.classifyTraced_eq`), and neither the explorer nor a walk
in search of free names is cut off by its bound on the depth. Whatever the arena, no body is left on the
stack of the explorer and no frame is left open by a walk (`Arena.classify_tidy`).

What classification returns can be applied to the arena, and the result can be verified: the decisions
are about bodies that unfold, because no cycle is reachable, and the blocks of the program hold no
conditionals that were not there before (`Applied.branchClosed`), so the verifier comes to an end on
them.
-/

namespace ClosureConversion

open Relation (TransGen)

namespace Classification

/-- Conversion makes no conditionals. -/
theorem eq_branch_of_convertItem {c : Classification} {i j : Item} {cond : Name} {yes no : BlockId}
    (h : c.convertItem i = some j) (hj : j.rhs = .branch cond yes no) :
    i.rhs = .branch cond yes no := by
  rcases convertItem_cases h with rfl | ⟨-, callee, args, rfl⟩ | ⟨d, captures, -, -, hmade⟩
  · exact hj
  · cases hj
  · cases hmade.symm.trans hj

end Classification

/-- A change of items adds and removes no block. -/
theorem Arena.Edited.numBlocks_eq {f : Item → Option Item} {a a' : Arena} (h : a.Edited f a') :
    a'.numBlocks = a.numBlocks := by
  apply Nat.le_antisymm
  · apply Nat.le_of_not_lt
    intro hlt
    obtain ⟨b, hb⟩ := Arena.exists_bounds? hlt
    rw [h.bounds] at hb
    exact Nat.lt_irrefl _ (Arena.bounds?_lt hb)
  · apply Nat.le_of_not_lt
    intro hlt
    obtain ⟨b, hb⟩ := Arena.exists_bounds? hlt
    rw [← h.bounds] at hb
    exact Nat.lt_irrefl _ (Arena.bounds?_lt hb)

namespace Applied

variable {a : Arena} {code : Code} {c : Classification} {p : Program}

/-- A conditional that is left after conversion was there before. -/
theorem ifEdge (h : Applied a code c p) {blk blk' : BlockId} (he : p.arena.IfEdge blk blk') :
    a.IfEdge blk blk' := by
  obtain ⟨j, hj, cond, yes, no, hrhs, hor⟩ := he
  rw [h.edited.items] at hj
  obtain ⟨i, hi, hconv⟩ := List.mem_filterMap.mp hj
  exact ⟨i, hi, cond, yes, no, Classification.eq_branch_of_convertItem hconv hrhs, hor⟩

/-- In the program, conditionals lead through blocks that the entry led to before, without cycles. -/
theorem branchClosed (h : Applied a code c p) : p.arena.BranchClosed {blk | a.Reaches blk} := by
  have hg := h.shows.guarded
  refine ⟨?_, ?_, ?_⟩
  · exact fun hr he => Arena.Reaches.edge hr (.inr (h.ifEdge he))
  · intro blk hr
    rw [h.edited.numBlocks_eq]
    exact hg.inRange blk hr
  · exact fun blk hr hcyc =>
      hg.noIfCycle blk hr (TransGen.mono (fun _ _ he => h.ifEdge he) _ _ hcyc)

/-- Checking a block of the program comes to an end. -/
theorem exists_checkBlock (h : Applied a code c p) {blk : BlockId} (hr : a.Reaches blk) :
    ∃ vs, p.checkBlock c.known blk = .ok vs := by
  obtain ⟨l, hl, -⟩ := h.branchClosed.exists_branchList hr
  rw [Program.checkBlock, hl]
  exact ⟨_, rfl⟩

/-- The body of a literal is a block that the entry leads to. -/
theorem reaches_body (h : Applied a code c p) {m : Member} (hm : m ∈ code.literals) :
    a.Reaches m.blk :=
  h.shows.reaches_iff.mpr ⟨m.body, Code.body_mem_blocks Arena.entry hm⟩

/-- Checking the decisions comes to an end: their bodies unfold. -/
theorem exists_checkDecisions (h : Applied a code c p) : ∃ vs, c.checkDecisions a = .ok vs := by
  have hstep : ∀ d ∈ c.decisions.values, ∃ l, c.checkDecision a d = .ok l ∧ True := by
    intro d hd
    obtain ⟨id, hid⟩ := Table.mem_values_iff.mp hd
    obtain ⟨m, hm, -, -, -, hbody⟩ := h.concerns.decision id d hid
    obtain ⟨inner, hinner, -⟩ := h.shows.guarded.exists_code (fun _ => h.shows.no_cycle)
      (h.reaches_body hm)
    rw [← hbody] at hinner
    exact ⟨_, Classification.checkDecision_eq hinner, trivial⟩
  obtain ⟨checked, hchecked, -⟩ := exists_mapM_eq_ok hstep
  rw [Classification.checkDecisions, hchecked]
  exact ⟨_, rfl⟩

/-- The verifier comes to an end, with violations or without. -/
theorem exists_verify (h : Applied a code c p) : ∃ vs, verify a c p = .ok vs := by
  have hstep : ∀ fn ∈ p.functions.values, ∃ l, p.checkBlock c.known fn.body = .ok l ∧ True := by
    intro fn hfn
    obtain ⟨f, hf⟩ := Table.mem_values_iff.mp hfn
    obtain ⟨m, hm, -, rfl⟩ := h.exists_literal hf
    obtain ⟨l, hl⟩ := h.exists_checkBlock (h.reaches_body hm)
    exact ⟨l, hl, trivial⟩
  obtain ⟨decisions, hdecisions⟩ := h.exists_checkDecisions
  obtain ⟨entry, hentry⟩ := h.exists_checkBlock .entry
  obtain ⟨bodies, hbodies, -⟩ := exists_mapM_eq_ok hstep
  rw [verify, hdecisions, hentry, hbodies]
  exact ⟨_, rfl⟩

end Applied

namespace Arena

variable {a : Arena} {c : Code}

/-- Where the entry shows code, the result of the classification can be applied and verified. -/
theorem Shows.exists_program (h : a.Shows entry c) (ho : a.Orderly) (optimize : Bool) :
    ∃ p vs, (c.classify optimize).val.applyTo a = .ok p ∧
      verify a (c.classify optimize).val p = .ok vs := by
  obtain ⟨p, hp, happlied⟩ := h.exists_applied ho (c.concerns_classify optimize)
  obtain ⟨vs, hvs⟩ := happlied.exists_verify
  exact ⟨p, vs, hp, hvs⟩

end Arena

/-- **Faults.** On an arena that comes about by edits, where the entry leads to blocks that exist and
to no cycle of conditionals alone, classification fails exactly if a cycle is reachable, and reports a
body on such a cycle. What it returns otherwise can be applied to the arena, and the result verified.
On the arena of a nested block nothing fails. On no arena whatever does classification report a body
whose exploration was not ended, or a frame that was not closed. -/
theorem classify_error_iff_cycle :
    (∀ (a : Arena) (optimize : Bool), a.Built → a.Guarded →
      ((∃ e, a.classify optimize = .error e) ↔
        ∃ blk, a.Reaches blk ∧ TransGen a.Edge blk blk) ∧
      (∀ e, a.classify optimize = .error e →
        ∃ ident blk, e = .cyclicBody ident blk ∧ a.Reaches blk ∧ TransGen a.Edge blk blk) ∧
      ∀ c, a.classify optimize = .ok c →
        ∃ p vs, c.applyTo a = .ok p ∧ verify a c p = .ok vs) ∧
    (∀ (t : Block) (optimize : Bool), ∃ c p vs,
      (Arena.ofBlock t).classify optimize = .ok c ∧ c.applyTo (Arena.ofBlock t) = .ok p ∧
        verify (Arena.ofBlock t) c p = .ok vs) ∧
    ∀ (a : Arena) (optimize : Bool),
      (∀ ident count, a.classify optimize ≠ .error (.unfinished ident count)) ∧
        ∀ frames, a.classify optimize ≠ .error (.unbalanced frames) := by
  refine ⟨fun a optimize hbuilt hg => ?_, fun t optimize => ?_, fun a optimize => ?_⟩
  · rcases hg.code_cases .entry with ⟨code, hcode, hshows⟩ | ⟨e, he, hcyc⟩
    · rw [Arena.classify_of_code_eq_ok hcode]
      refine ⟨⟨?_, ?_⟩, ?_, ?_⟩
      · rintro ⟨e, he⟩
        cases he
      · rintro ⟨blk, hr, hcyc⟩
        exact absurd hcyc (hshows.no_cycle hr)
      · intro e he
        cases he
      · intro c hc
        cases hc
        exact hshows.exists_program hbuilt.orderly optimize
    · rw [Arena.classify_of_code_eq_error he]
      refine ⟨⟨fun _ => ?_, fun _ => ⟨e, rfl⟩⟩, ?_, ?_⟩
      · obtain ⟨ident, blk, -, hr, hloop⟩ := hcyc
        exact ⟨blk, hr, hloop⟩
      · intro e' he'
        cases he'
        exact hcyc
      · intro c hc
        cases hc
  · have h := Arena.ofBlock_unfolds t
    obtain ⟨p, vs, hp, hvs⟩ := h.shows.exists_program h.orderly optimize
    exact ⟨_, p, vs, h.classify_eq optimize, hp, hvs⟩
  · have htidy := a.classify_tidy optimize
    exact ⟨fun _ _ he => htidy _ he trivial, fun _ he => htidy _ he trivial⟩

/-- A conditional whose two blocks are one, which holds a function over the entry: a cycle through the
entry that mixes both kinds of edges. -/
def Arena.mixedCycle : Arena :=
  build [.newBlock, .push entry "r" (.branch "x" 1 1), .push 1 "f" (.fn [] entry)]

/-- The cycle of the sample is not one of conditionals alone. -/
theorem Arena.mixedCycle_guarded : mixedCycle.Guarded where
  inRange := by
    have hstep : ∀ blk < 2, ∀ i ∈ mixedCycle.items blk, ∀ b ∈ i.rhs.blocks, b < 2 := by decide
    intro blk h
    induction h with
    | entry => decide
    | step _ hi hb ih => exact hstep _ ih _ hi _ hb
  noIfCycle := by
    -- the blocks of a conditional have higher numbers than its own
    have hstep : ∀ blk < 2, ∀ i ∈ mixedCycle.items blk, i.rhs.isFn = false →
        ∀ b ∈ i.rhs.blocks, blk < b := by decide
    have hedge : ∀ {blk b : BlockId}, mixedCycle.IfEdge blk b → blk < b := by
      rintro blk b ⟨i, hi, cond, yes, no, hrhs, hor⟩
      obtain ⟨bounds, hb⟩ := exists_bounds?_of_mem_items hi
      refine hstep blk (bounds?_lt hb) i hi (by rw [hrhs]; rfl) b ?_
      simpa [hrhs, Rhs.blocks] using hor
    have hpath : ∀ {blk b : BlockId}, TransGen mixedCycle.IfEdge blk b → blk < b := by
      intro blk b h
      induction h with
      | single he => exact hedge he
      | tail _ he ih => exact Nat.lt_trans ih (hedge he)
    exact fun blk _ h => Nat.lt_irrefl blk (hpath h)

/-- A cycle through a conditional and a body is found and reported for the body. -/
theorem classify_error_iff_cycle_mixedCycle :
    Arena.mixedCycle.Built ∧ Arena.mixedCycle.Guarded ∧
      ∃ e, Arena.mixedCycle.classify true = .error e ∧ ∃ ident blk, e = .cyclicBody ident blk ∧
        Arena.mixedCycle.Reaches blk ∧ TransGen Arena.mixedCycle.Edge blk blk := by
  have hbuilt : Arena.mixedCycle.Built := ⟨_, rfl⟩
  have hclassify : Arena.mixedCycle.classify true = .error (.cyclicBody "f" Arena.entry) := by
    decide +kernel
  refine ⟨hbuilt, Arena.mixedCycle_guarded, _, hclassify, ?_⟩
  exact (classify_error_iff_cycle.1 _ true hbuilt Arena.mixedCycle_guarded).2.1 _ hclassify

end ClosureConversion
