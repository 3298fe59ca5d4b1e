import ClosureConversion.Proofs.Arena.Unfolding

/-!
# Cycles of blocks

The blocks of an arena are the vertices of a graph: an edge leads from a block to the body of each of
its function literals (`Arena.FnEdge`) and to the two blocks of each of its conditionals
(`Arena.IfEdge`). Unfolding guards against cycles through a body only. So let no cycle of conditionals
alone be reachable.

* Unfolding then comes to one of two ends: code that the arena shows, or the report of a body that is
  entered again, and such a body lies on a cycle (`Outcome`, `unfold_outcome`). Its fuel is enough: no
  body is entered twice inside itself, and between two bodies no block is.
* What an arena shows is finite, so no cycle leads through it (`Shows.not_transGen`).

Hence unfolding fails exactly if a cycle is reachable (`Guarded.code_cases`, `Guarded.exists_code`).
-/

namespace ClosureConversion

open Relation (TransGen ReflTransGen)

namespace Arena

variable {a : Arena} {blk blk' b : BlockId} {c : Code}

/-! ## The graph of blocks -/

/-- A function literal leads from its block to its body. -/
def FnEdge (a : Arena) (blk blk' : BlockId) : Prop :=
  ∃ i ∈ a.items blk, ∃ params, i.rhs = .fn params blk'

/-- A conditional leads from its block to the two blocks it holds. -/
def IfEdge (a : Arena) (blk blk' : BlockId) : Prop :=
  ∃ i ∈ a.items blk, ∃ cond yes no, i.rhs = .branch cond yes no ∧ (blk' = yes ∨ blk' = no)

/-- A block holds another one. -/
def Edge (a : Arena) (blk blk' : BlockId) : Prop := a.FnEdge blk blk' ∨ a.IfEdge blk blk'

/-- An edge leads to a block that some item of the first block holds. -/
theorem edge_iff : a.Edge blk blk' ↔ ∃ i ∈ a.items blk, blk' ∈ i.rhs.blocks := by
  constructor
  · rintro (⟨i, hi, params, hrhs⟩ | ⟨i, hi, cond, yes, no, hrhs, hor⟩)
    · exact ⟨i, hi, by simp [hrhs, Rhs.blocks]⟩
    · exact ⟨i, hi, by simpa [hrhs, Rhs.blocks] using hor⟩
  · rintro ⟨i, hi, hmem⟩
    cases hrhs : i.rhs with
    | op o => simp [hrhs, Rhs.blocks] at hmem
    | fn params body =>
        have he : blk' = body := by simpa [hrhs, Rhs.blocks] using hmem
        exact .inl ⟨i, hi, params, he ▸ hrhs⟩
    | branch cond yes no =>
        exact .inr ⟨i, hi, cond, yes, no, hrhs, by simpa [hrhs, Rhs.blocks] using hmem⟩

/-- A path through conditionals is a path. -/
theorem transGen_edge (h : TransGen a.IfEdge blk blk') : TransGen a.Edge blk blk' :=
  TransGen.mono (fun _ _ he => .inr he) _ _ h

/-- Edges lead on from blocks that the entry leads to. -/
theorem Reaches.edge (h : a.Reaches blk) (he : a.Edge blk blk') : a.Reaches blk' := by
  obtain ⟨i, hi, hmem⟩ := edge_iff.mp he
  exact .step h hi hmem

/-- Paths lead on from blocks that the entry leads to. -/
theorem Reaches.trans (h : a.Reaches blk) (hp : ReflTransGen a.Edge blk blk') : a.Reaches blk' := by
  induction hp with
  | refl => exact h
  | tail _ he ih => exact ih.edge he

/-- All blocks that the entry leads to exist, and conditionals alone lead from none of them back to
itself. -/
structure Guarded (a : Arena) : Prop where
  inRange : ∀ blk, a.Reaches blk → blk < a.numBlocks
  noIfCycle : ∀ blk, a.Reaches blk → ¬TransGen a.IfEdge blk blk

/-! ## Shown code has no cycles -/

namespace Shows

/-- Where a block shows code, its edges lead to the blocks that the code holds. -/
theorem exists_child (h : a.Shows blk c) (he : a.Edge blk blk') : ∃ y ∈ c.children, y.1 = blk' := by
  obtain ⟨i, hi, hmem⟩ := edge_iff.mp he
  rw [(h _ List.mem_cons_self).2] at hi
  have hmem' : blk' ∈ c.children.map (·.1) := by
    rw [Code.map_fst_children]
    exact List.mem_flatMap.mpr ⟨i, hi, hmem⟩
  obtain ⟨y, hy, he⟩ := List.mem_map.mp hmem'
  exact ⟨y, hy, he⟩

/-- Along a path the code that is shown gets smaller. -/
theorem exists_smaller (h : a.Shows blk c) (hp : TransGen a.Edge blk blk') :
    ∃ d, a.Shows blk' d ∧ d.nested.length < c.nested.length := by
  have hedge : ∀ {blk blk' : BlockId} {c : Code}, a.Shows blk c → a.Edge blk blk' →
      ∃ d, a.Shows blk' d ∧ d.nested.length < c.nested.length := by
    intro blk blk' c h he
    obtain ⟨y, hy, rfl⟩ := h.exists_child he
    refine ⟨y.2, h.of_mem_blocks (Code.child_mem_blocks List.mem_cons_self hy), ?_⟩
    exact (Code.blocks_sublist_nested hy).length_le
  induction hp with
  | single he => exact hedge h he
  | tail _ he ih =>
      obtain ⟨d, hd, hlt⟩ := ih
      obtain ⟨d', hd', hlt'⟩ := hedge hd he
      exact ⟨d', hd', hlt'.trans hlt⟩

/-- A block that shows code does not lie on a cycle: the nested code would have to be smaller than
itself. -/
theorem not_transGen (h : a.Shows blk c) : ¬TransGen a.Edge blk blk := by
  intro hp
  induction hn : c.nested.length using Nat.strong_induction_on generalizing c with
  | _ n ih =>
      obtain ⟨d, hd, hlt⟩ := h.exists_smaller hp
      exact ih _ (hn ▸ hlt) hd rfl

/-- What an arena shows is put together from what it shows at the blocks inside. -/
theorem of_children {bounds : Bounds} (hb : a.bounds? blk = some bounds)
    (hitems : a.items blk = c.heads) (hc : ∀ y ∈ c.children, a.Shows y.1 y.2) : a.Shows blk c := by
  intro x hx
  rcases List.mem_cons.mp hx with rfl | hx
  · exact ⟨⟨bounds, hb⟩, hitems⟩
  · obtain ⟨y, hy, hx⟩ := Code.exists_child_of_mem_nested hx
    exact hc y hy x hx

end Shows

/-! ## Unfolding step by step -/

/-- The report of a body on a cycle. -/
def ReportsCycle (a : Arena) (e : Fault) : Prop :=
  ∃ ident b, e = .cyclicBody ident b ∧ a.Reaches b ∧ TransGen a.Edge b b

/-- The two ends that unfolding a block can come to. -/
def Outcome (a : Arena) (blk : BlockId) : Except Fault Code → Prop
  | .ok c => a.Shows blk c
  | .error e => a.ReportsCycle e

/-- Records put together come to a good end if everything they hold does. -/
theorem assemble_outcome {body : Name → BlockId → Except Fault Code}
    {branch : BlockId → Except Fault Code} {l : List (RecordId × Record)}
    (hbody : ∀ x ∈ l, ∀ params b, x.2.rhs = .fn params b → a.Outcome b (body x.2.ident b))
    (hbranch : ∀ x ∈ l, ∀ cond yes no, x.2.rhs = .branch cond yes no →
      a.Outcome yes (branch yes) ∧ a.Outcome no (branch no)) :
    (∃ c, Code.assemble body branch l = .ok c ∧ l.map (fun x => x.2.item x.1) = c.heads ∧
      ∀ y ∈ c.children, a.Shows y.1 y.2) ∨
    ∃ e, Code.assemble body branch l = .error e ∧ a.ReportsCycle e := by
  induction l with
  | nil => exact .inl ⟨.done, rfl, rfl, fun _ hy => absurd hy List.not_mem_nil⟩
  | cons x l ih =>
      obtain ⟨id, ident, rhs, prev, next⟩ := x
      have hrest := ih (fun x hx => hbody x (List.mem_cons_of_mem _ hx))
        fun x hx => hbranch x (List.mem_cons_of_mem _ hx)
      cases rhs with
      | op o =>
          rcases hrest with ⟨c, hc, hheads, hchildren⟩ | ⟨e, he, hcyc⟩
          · refine .inl ⟨.op id ident o c, ?_, congrArg _ hheads, hchildren⟩
            simp only [Code.assemble, hc]
            rfl
          · refine .inr ⟨e, ?_, hcyc⟩
            simp only [Code.assemble, he]
            rfl
      | fn params b =>
          have hb : a.Outcome b (body ident b) := hbody _ List.mem_cons_self params b rfl
          cases hres : body ident b with
          | error e =>
              rw [hres] at hb
              refine .inr ⟨e, ?_, hb⟩
              simp only [Code.assemble, hres]
              rfl
          | ok inner =>
              rw [hres] at hb
              rcases hrest with ⟨c, hc, hheads, hchildren⟩ | ⟨e, he, hcyc⟩
              · refine .inl ⟨.fn id ident params b inner c, ?_, congrArg _ hheads, ?_⟩
                · simp only [Code.assemble, hres, hc]
                  rfl
                · exact List.forall_mem_cons.mpr ⟨hb, hchildren⟩
              · refine .inr ⟨e, ?_, hcyc⟩
                simp only [Code.assemble, hres, he]
                rfl
      | branch cond yes no =>
          obtain ⟨hyes, hno⟩ := hbranch _ List.mem_cons_self cond yes no rfl
          cases hry : branch yes with
          | error e =>
              rw [hry] at hyes
              refine .inr ⟨e, ?_, hyes⟩
              simp only [Code.assemble, hry]
              rfl
          | ok y =>
              rw [hry] at hyes
              cases hrn : branch no with
              | error e =>
                  rw [hrn] at hno
                  refine .inr ⟨e, ?_, hno⟩
                  simp only [Code.assemble, hry, hrn]
                  rfl
              | ok n =>
                  rw [hrn] at hno
                  rcases hrest with ⟨c, hc, hheads, hchildren⟩ | ⟨e, he, hcyc⟩
                  · refine .inl ⟨.branch id ident cond yes no y n c, ?_, congrArg _ hheads, ?_⟩
                    · simp only [Code.assemble, hry, hrn, hc]
                      rfl
                    · exact List.forall_mem_cons.mpr
                        ⟨hyes, List.forall_mem_cons.mpr ⟨hno, hchildren⟩⟩
                  · refine .inr ⟨e, ?_, hcyc⟩
                    simp only [Code.assemble, hry, hrn, he]
                    rfl

/-- Where unfolding stands when it enters a block: `active` are the bodies around it, `path` the
blocks entered since the last of them. -/
structure Inside (a : Arena) (active path : List BlockId) (blk : BlockId) : Prop where
  reaches : a.Reaches blk
  active_reaches : ∀ b ∈ active, a.Reaches b ∧ ReflTransGen a.Edge b blk
  active_nodup : active.Nodup
  path_reaches : ∀ b ∈ path, a.Reaches b ∧ ReflTransGen a.IfEdge b blk
  path_nodup : path.Nodup

namespace Inside

variable {active path : List BlockId}

/-- Before the first body is entered, the path is the block itself. -/
theorem start (h : a.Reaches blk) : a.Inside [] [blk] blk where
  reaches := h
  active_reaches := by simp
  active_nodup := List.nodup_nil
  path_reaches := by
    intro b hb
    obtain rfl := List.mem_singleton.mp hb
    exact ⟨h, .refl⟩
  path_nodup := List.nodup_singleton _

/-- Conditionals lead to no block of the path. -/
theorem branch (h : a.Inside active path blk) (hg : a.Guarded) (he : a.IfEdge blk blk') :
    a.Inside active (blk' :: path) blk' where
  reaches := h.reaches.edge (.inr he)
  active_reaches := fun b hb => (h.active_reaches b hb).imp_right fun hp => hp.tail (.inr he)
  active_nodup := h.active_nodup
  path_reaches := by
    intro b hb
    rcases List.mem_cons.mp hb with rfl | hb
    · exact ⟨h.reaches.edge (.inr he), .refl⟩
    · exact (h.path_reaches b hb).imp_right fun hp => hp.tail he
  path_nodup := by
    refine List.nodup_cons.mpr ⟨fun hmem => ?_, h.path_nodup⟩
    obtain ⟨hr, hp⟩ := h.path_reaches _ hmem
    exact hg.noIfCycle _ hr (TransGen.tail' hp he)

/-- Entering a new body begins a new path. -/
theorem body (h : a.Inside active path blk) (he : a.FnEdge blk b) (hb : b ∉ active) :
    a.Inside (b :: active) [b] b where
  reaches := h.reaches.edge (.inl he)
  active_reaches := by
    intro b' hb'
    rcases List.mem_cons.mp hb' with rfl | hb'
    · exact ⟨h.reaches.edge (.inl he), .refl⟩
    · exact (h.active_reaches b' hb').imp_right fun hp => hp.tail (.inl he)
  active_nodup := List.nodup_cons.mpr ⟨hb, h.active_nodup⟩
  path_reaches := (start (h.reaches.edge (.inl he))).path_reaches
  path_nodup := List.nodup_singleton _

/-- A body that is entered again lies on a cycle. -/
theorem reportsCycle (h : a.Inside active path blk) (he : a.FnEdge blk b) (hb : b ∈ active)
    (ident : Name) : a.ReportsCycle (.cyclicBody ident b) := by
  obtain ⟨hr, hp⟩ := h.active_reaches b hb
  exact ⟨ident, b, rfl, hr, TransGen.tail' hp (.inl he)⟩

/-- No more bodies are entered than there are blocks, since none is entered twice. -/
theorem length_active_le (h : a.Inside active path blk) (hg : a.Guarded) :
    active.length ≤ a.numBlocks :=
  length_le_numBlocks (fun b hb => hg.inRange b (h.active_reaches b hb).1) h.active_nodup

/-- Between two bodies no more conditionals are entered than there are blocks. -/
theorem length_path_le (h : a.Inside active path blk) (hg : a.Guarded) :
    path.length ≤ a.numBlocks :=
  length_le_numBlocks (fun b hb => hg.inRange b (h.path_reaches b hb).1) h.path_nodup

end Inside

/-- Unfolding comes to one of its two ends. The fuel counts the bodies that can still be entered, and
the blocks before the next body. -/
theorem unfold_outcome {active path : List BlockId} {fuel : Nat} (hg : a.Guarded)
    (h : a.Inside active path blk)
    (hf : (a.numBlocks - active.length) * (a.numBlocks + 1) + (a.numBlocks + 1 - path.length) ≤
      fuel) :
    a.Outcome blk (a.unfold fuel active blk) := by
  induction fuel generalizing active path blk with
  | zero =>
      have hlen := h.length_path_le hg
      omega
  | succ fuel ih =>
      obtain ⟨bounds, hb⟩ := exists_bounds? (hg.inRange blk h.reaches)
      have hblock : a.requireBlock blk = .ok bounds := by
        rw [requireBlock, hb]
      have hmem : ∀ x ∈ a.list blk, x.2.item x.1 ∈ a.items blk := fun x hx => List.mem_map_of_mem hx
      have hpath := h.length_path_le hg
      have hbody : ∀ x ∈ a.list blk, ∀ params b, x.2.rhs = .fn params b →
          a.Outcome b (Code.enterBody (a.unfold fuel) active x.2.ident b) := by
        intro x hx params b hrhs
        have he : a.FnEdge blk b := ⟨_, hmem x hx, params, hrhs⟩
        unfold Code.enterBody
        split
        next hactive => exact h.reportsCycle he hactive x.2.ident
        next hactive =>
          have hin := h.body he hactive
          have hlen : active.length + 1 ≤ a.numBlocks := hin.length_active_le hg
          refine ih hin ?_
          obtain ⟨k, hk⟩ := Nat.exists_eq_add_of_le hlen
          have hk₁ : a.numBlocks - active.length = k + 1 := by omega
          have hk₂ : a.numBlocks - (b :: active).length = k := by
            rw [List.length_cons]
            omega
          rw [hk₁, Nat.succ_mul] at hf
          rw [hk₂, List.length_singleton]
          omega
      have hbranch : ∀ x ∈ a.list blk, ∀ cond yes no, x.2.rhs = .branch cond yes no →
          a.Outcome yes (a.unfold fuel active yes) ∧ a.Outcome no (a.unfold fuel active no) := by
        intro x hx cond yes no hrhs
        have hstep : ∀ b, b = yes ∨ b = no → a.Outcome b (a.unfold fuel active b) := by
          intro b hor
          have hin := h.branch hg ⟨_, hmem x hx, cond, yes, no, hrhs, hor⟩
          have hlen := hin.length_path_le hg
          refine ih hin ?_
          rw [List.length_cons] at hlen ⊢
          omega
        exact ⟨hstep yes (.inl rfl), hstep no (.inr rfl)⟩
      have hunfold : a.unfold (fuel + 1) active blk =
          Code.assemble (Code.enterBody (a.unfold fuel) active) (a.unfold fuel active)
            (a.list blk) := by
        simp only [unfold, hblock]
        rfl
      rw [hunfold]
      rcases assemble_outcome hbody hbranch with ⟨c, hc, hheads, hchildren⟩ | ⟨e, he, hcyc⟩
      · rw [hc]
        exact .of_children hb hheads hchildren
      · rw [he]
        exact hcyc

namespace Guarded

/-- A block that the entry leads to unfolds to what the arena shows, or a cycle is reported. -/
theorem code_cases (hg : a.Guarded) (h : a.Reaches blk) :
    (∃ c, a.code blk = .ok c ∧ a.Shows blk c) ∨ ∃ e, a.code blk = .error e ∧ a.ReportsCycle e := by
  have hout : a.Outcome blk (a.code blk) := by
    refine unfold_outcome hg (Inside.start h) ?_
    rw [depthBound, List.length_nil, List.length_singleton, Nat.sub_zero, Nat.succ_mul]
    omega
  cases hres : a.code blk with
  | ok c =>
      rw [hres] at hout
      exact .inl ⟨c, rfl, hout⟩
  | error e =>
      rw [hres] at hout
      exact .inr ⟨e, rfl, hout⟩

/-- Without cycles every block that the entry leads to unfolds. -/
theorem exists_code (hg : a.Guarded) (hno : ∀ b, a.Reaches b → ¬TransGen a.Edge b b)
    (h : a.Reaches blk) : ∃ c, a.code blk = .ok c ∧ a.Shows blk c := by
  rcases hg.code_cases h with hc | ⟨e, -, ident, b, -, hr, hcyc⟩
  · exact hc
  · exact absurd hcyc (hno b hr)

end Guarded

/-- Where the entry shows code, no cycle is reachable. -/
theorem Shows.no_cycle (h : a.Shows entry c) (hr : a.Reaches b) : ¬TransGen a.Edge b b := by
  obtain ⟨d, hd⟩ := h.reaches_iff.mp hr
  exact (h.of_mem_blocks hd).not_transGen

/-- Where the entry shows code, the blocks it leads to exist and no conditionals lead back to
themselves. -/
theorem Shows.guarded (h : a.Shows entry c) : a.Guarded where
  inRange := by
    intro blk hr
    obtain ⟨d, hd⟩ := h.reaches_iff.mp hr
    obtain ⟨⟨bounds, hb⟩, -⟩ := h _ hd
    exact bounds?_lt hb
  noIfCycle := fun _ hr hcyc => h.no_cycle hr (transGen_edge hcyc)

end Arena

end ClosureConversion
