import ClosureConversion.Proofs.CaptureLists

/-!
# What a verdict says

The verifier reports a broken rule wherever there is one, and nothing else. The rules are stated here by
themselves: `Classification.Breaks` for a decision, `Program.Breaks` for an instruction. Two tests of the
verifier are not among them, that a captured name is read in the body and is no parameter: both hold of
every free name, so no report is due to them alone.

* `Classification.mem_judge`, `Program.mem_checkRecord`: a check reports the rules that are
  broken.
* `Reports`: a list goes through some things and holds the broken rules of each. A verdict goes through
  the decisions and then through the instructions of all blocks that conditionals lead to
  (`verify_reports`).

The program may be any program: it need not come from a conversion.
-/

namespace ClosureConversion

open Relation (TransGen ReflTransGen)

/-! ## Rules -/

/-- A decision breaks a rule, where the function has the names `free` free and `captures` are captured
for it. -/
inductive Decision.Breaks (d : Decision) (free : NameSet) (captures : List Name) :
    Violation → Prop where
  /-- A known function has free names. -/
  | knownCaptures : d.standing = .known → free ≠ ∅ →
    Breaks d free captures (.knownCaptures d.name free.toList)
  /-- Free names of a closure are not captured. -/
  | missingCapture {missing : List Name} : d.standing = .closure →
    free.toList.filter (fun n => n ≠ d.name ∧ n ∉ captures) = missing → missing ≠ [] →
    Breaks d free captures (.missingCapture d.name missing)
  /-- Names are captured that are not free. -/
  | spuriousCapture {spurious : List Name} : d.standing = .closure →
    captures.filter (· ∉ free) = spurious → spurious ≠ [] →
    Breaks d free captures (.spuriousCapture d.name spurious)

/-- A decision breaks a rule in the arena that it was made for. -/
def Classification.Breaks (c : Classification) (source : Arena) (d : Decision) (v : Violation) :
    Prop :=
  ∃ free, source.functionFreeNames c.known d.params d.body = .ok free ∧
    d.Breaks free ((c.captures? d.name).getD []) v

/-- An instruction breaks a rule. -/
inductive Program.Breaks (p : Program) (known : NameSet) (i : Item) : Violation → Prop where
  | functionSurvived {params : List Name} {body : BlockId} : i.rhs = .fn params body →
    Breaks p known i (.functionSurvived i.ident)
  | unknownTarget {captures : List Name} {target : Name} :
    i.rhs = .op (.makeClosure captures target) → p.functions.contains target = false →
    Breaks p known i (.unknownTarget target)
  | indirectMismatch {callee : Name} {args : List Name} {indirect : Bool} :
    i.rhs = .op (.app callee args indirect) → ¬(indirect = true ↔ callee ∉ known) →
    Breaks p known i (.indirectMismatch i.id callee indirect)

/-- The decisions agree with the free names of the functions. -/
structure Classification.Justified (c : Classification) (source : Arena) : Prop where
  known : ∀ d ∈ c.decisions.values, d.standing = .known →
    source.functionFreeNames c.known d.params d.body = .ok ∅
  closure : ∀ d ∈ c.decisions.values, d.standing = .closure →
    ∃ free, source.functionFreeNames c.known d.params d.body = .ok free ∧
      (∀ n ∈ free, n ≠ d.name → n ∈ (c.captures? d.name).getD []) ∧
      ∀ n ∈ (c.captures? d.name).getD [], n ∈ free

/-- The instructions that a program covers are those of a converted one. -/
structure Program.Conforms (p : Program) (known : NameSet) : Prop where
  noLiteral : ∀ blk, p.Covers blk → ∀ i ∈ p.arena.items blk, i.rhs.isFn = false
  target : ∀ blk, p.Covers blk → ∀ i ∈ p.arena.items blk, ∀ captures target,
    i.rhs = .op (.makeClosure captures target) → ∃ fn, p.functions.get? target = some fn
  call : ∀ blk, p.Covers blk → ∀ i ∈ p.arena.items blk, ∀ callee args indirect,
    i.rhs = .op (.app callee args indirect) → (indirect = true ↔ callee ∉ known)

/-! ## Single checks -/

/-- The test for the empty set. -/
theorem NameSet.isEmpty_iff_eq_empty (s : NameSet) : s.isEmpty = true ↔ s = ∅ :=
  isEmpty_iff.trans eq_empty_iff.symm

namespace Classification

variable {c : Classification} {source : Arena} {d : Decision} {body : Code} {v : Violation}

/-- A free name is read and is no parameter, so it is enough that a captured name is free. -/
theorem filter_spurious (captures params : List Name) (known : NameSet) (body : Code) :
    (captures.filter fun n => n ∉ body.bodyFreeNames known params ∨ n ∉ body.reads ∨ n ∈ params) =
      captures.filter (· ∉ body.bodyFreeNames known params) := by
  apply List.filter_congr
  intro n _
  rw [decide_eq_decide, or_iff_left_iff_imp]
  rintro (hread | hparam) hfree
  · exact hread (Code.mem_bodyFreeNames.mp hfree).1.mem_reads
  · exact (Code.mem_bodyFreeNames.mp hfree).2 hparam

/-- What a check of a decision reports are the rules that it breaks. -/
theorem mem_judge : v ∈ c.judge d body ↔
    d.Breaks (body.bodyFreeNames c.known d.params) ((c.captures? d.name).getD []) v := by
  unfold judge
  cases hd : d.standing with
  | known =>
      have hempty := (body.bodyFreeNames c.known d.params).isEmpty_iff_eq_empty
      simp only [List.mem_ite_nil_left, List.mem_singleton, hempty]
      constructor
      · rintro ⟨hne, rfl⟩
        exact .knownCaptures hd hne
      · intro hv
        cases hv with
        | knownCaptures _ hne => exact ⟨hne, rfl⟩
        | missingCapture hc => cases hd.symm.trans hc
        | spuriousCapture hc => cases hd.symm.trans hc
  | closure =>
      simp only [checkClosure, filter_spurious, List.mem_append, List.mem_ite_nil_left,
        List.mem_singleton]
      constructor
      · rintro (⟨hne, rfl⟩ | ⟨hne, rfl⟩)
        · exact .missingCapture hd rfl hne
        · exact .spuriousCapture hd rfl hne
      · intro hv
        cases hv with
        | knownCaptures hk => cases hd.symm.trans hk
        | missingCapture _ heq hne =>
            subst heq
            exact .inl ⟨hne, rfl⟩
        | spuriousCapture _ heq hne =>
            subst heq
            exact .inr ⟨hne, rfl⟩

end Classification

namespace Program

variable {p : Program} {known : NameSet} {id : RecordId} {r : Record} {v : Violation}

/-- What a check of an instruction reports are the rules that it breaks. -/
theorem mem_checkRecord : v ∈ p.checkRecord known id r ↔ p.Breaks known (r.item id) v := by
  unfold checkRecord
  constructor
  · intro hv
    split at hv
    next params body hrhs =>
      obtain rfl := List.mem_singleton.mp hv
      exact .functionSurvived hrhs
    next captures target hrhs =>
      obtain ⟨hout, hv⟩ := List.mem_ite_nil_left.mp hv
      obtain rfl := List.mem_singleton.mp hv
      exact .unknownTarget hrhs (Bool.eq_false_iff.mpr hout)
    next callee args indirect hrhs =>
      obtain ⟨heq, hv⟩ := List.mem_ite_nil_right.mp hv
      obtain rfl := List.mem_singleton.mp hv
      refine .indirectMismatch hrhs fun hiff => ?_
      rw [heq, NameSet.contains_iff] at hiff
      exact iff_not_self hiff
    next => exact absurd hv List.not_mem_nil
  · intro hv
    cases hv with
    | functionSurvived hrhs =>
        rw [show r.rhs = _ from hrhs]
        exact List.mem_singleton_self _
    | unknownTarget hrhs hout =>
        rw [show r.rhs = _ from hrhs]
        exact List.mem_ite_nil_left.mpr ⟨Bool.eq_false_iff.mp hout, List.mem_singleton_self _⟩
    | @indirectMismatch callee args indirect hrhs hne =>
        have heq : indirect = known.contains callee := by
          rw [Bool.eq_iff_iff, NameSet.contains_iff]
          tauto
        rw [show r.rhs = _ from hrhs]
        exact List.mem_ite_nil_right.mpr ⟨heq, List.mem_singleton_self _⟩

end Program

/-! ## Reports -/

/-- A list goes through some things in their order and holds the violations of each, none twice. -/
inductive Reports {α : Type} (breaks : α → Violation → Prop) : List α → List Violation → Prop where
  | nil : Reports breaks [] []
  | cons {x : α} {xs : List α} {part vs : List Violation} : part.Nodup →
    (∀ v, v ∈ part ↔ breaks x v) → Reports breaks xs vs → Reports breaks (x :: xs) (part ++ vs)

namespace Reports

variable {α β : Type} {breaks : α → Violation → Prop} {xs xs' : List α} {vs vs' : List Violation}

/-- Reports one after the other. -/
theorem append (h : Reports breaks xs vs) (h' : Reports breaks xs' vs') :
    Reports breaks (xs ++ xs') (vs ++ vs') := by
  induction h with
  | nil => exact h'
  | cons hn hiff _ ih =>
      rw [List.cons_append, List.append_assoc]
      exact .cons hn hiff ih

/-- What is reported is broken by something that was gone through. -/
theorem mem_iff (h : Reports breaks xs vs) {v : Violation} : v ∈ vs ↔ ∃ x ∈ xs, breaks x v := by
  induction h with
  | nil => simp
  | cons _ hiff _ ih => rw [List.mem_append, hiff, ih, List.exists_mem_cons_iff]

/-- Nothing is reported if nothing is broken. -/
theorem eq_nil_iff (h : Reports breaks xs vs) : vs = [] ↔ ∀ x ∈ xs, ∀ v, ¬breaks x v := by
  rw [List.eq_nil_iff_forall_not_mem]
  constructor
  · exact fun hno x hx v hb => hno v (h.mem_iff.mpr ⟨x, hx, hb⟩)
  · intro hno v hv
    obtain ⟨x, hx, hb⟩ := h.mem_iff.mp hv
    exact hno x hx v hb

/-- Reports of each part make a report of the whole. -/
theorem flatMap {f : β → List Violation} {g : β → α} {l : List β}
    (hn : ∀ y ∈ l, (f y).Nodup) (hf : ∀ y ∈ l, ∀ v, v ∈ f y ↔ breaks (g y) v) :
    Reports breaks (l.map g) (l.flatMap f) := by
  induction l with
  | nil => exact .nil
  | cons y l ih =>
      refine .cons (hn y List.mem_cons_self) (hf y List.mem_cons_self) (ih ?_ ?_)
      · exact fun z hz => hn z (List.mem_cons_of_mem _ hz)
      · exact fun z hz => hf z (List.mem_cons_of_mem _ hz)

/-- A traversal whose steps go through some things goes through all of them. -/
theorem exists_mapM {f : β → Except Fault (List Violation)} {walk : β → List α} {l : List β}
    (h : ∀ y ∈ l, ∃ vs, f y = .ok vs ∧ Reports breaks (walk y) vs) :
    ∃ parts, l.mapM f = .ok parts ∧ Reports breaks (l.flatMap walk) parts.flatten := by
  induction l with
  | nil => exact ⟨[], rfl, .nil⟩
  | cons y l ih =>
      obtain ⟨vs, hvs, hy⟩ := h y List.mem_cons_self
      obtain ⟨parts, hparts, hl⟩ := ih fun z hz => h z (List.mem_cons_of_mem _ hz)
      refine ⟨vs :: parts, ?_, hy.append hl⟩
      rw [List.mapM_cons, hvs, hparts]
      rfl

end Reports

/-! ## Verdicts -/

namespace Classification

variable {c : Classification} {source : Arena}

/-- No violation is reported twice for one decision. -/
theorem nodup_judge (c : Classification) (d : Decision) (body : Code) :
    (c.judge d body).Nodup := by
  unfold judge checkClosure
  split
  next =>
    dsimp only
    split <;> simp
  next =>
    dsimp only
    split <;> split <;> simp

/-- If the bodies of all decided functions unfold, the decisions can be checked. -/
theorem exists_checkDecisions
    (hbody : ∀ d ∈ c.decisions.values, ∃ body, source.code d.body = .ok body) :
    ∃ vs, c.checkDecisions source = .ok vs ∧
      Reports (c.Breaks source) c.decisions.values vs := by
  have hstep : ∀ d ∈ c.decisions.values, ∃ vs, c.checkDecision source d = .ok vs ∧
      Reports (c.Breaks source) [d] vs := by
    intro d hd
    obtain ⟨body, hb⟩ := hbody d hd
    have hfree : source.functionFreeNames c.known d.params d.body =
        .ok (body.bodyFreeNames c.known d.params) := Arena.functionFreeNames_eq hb
    refine ⟨c.judge d body, checkDecision_eq hb, ?_⟩
    rw [← List.append_nil (c.judge d body)]
    refine .cons (c.nodup_judge d body) (fun v => ?_) .nil
    rw [mem_judge, Breaks, hfree]
    simp
  obtain ⟨parts, hparts, hrep⟩ := Reports.exists_mapM hstep
  rw [List.flatMap_singleton'] at hrep
  refine ⟨parts.flatten, ?_, hrep⟩
  rw [checkDecisions, hparts]
  rfl

/-- The decisions are justified exactly if none breaks a rule. -/
theorem justified_iff
    (hfree : ∀ d ∈ c.decisions.values, ∃ free,
      source.functionFreeNames c.known d.params d.body = .ok free) :
    c.Justified source ↔ ∀ d ∈ c.decisions.values, ∀ v, ¬c.Breaks source d v := by
  constructor
  · rintro h d hd v ⟨free, hf, hb⟩
    cases hb with
    | knownCaptures hk hne => exact hne (Except.ok.inj (hf.symm.trans (h.known d hd hk)))
    | missingCapture hc heq hne =>
        obtain ⟨free', hf', hmissing, -⟩ := h.closure d hd hc
        obtain rfl := Except.ok.inj (hf.symm.trans hf')
        refine hne (heq ▸ List.filter_eq_nil_iff.mpr fun n hn hout => ?_)
        obtain ⟨hself, hout⟩ := of_decide_eq_true hout
        exact hout (hmissing n hn hself)
    | spuriousCapture hc heq hne =>
        obtain ⟨free', hf', -, hspurious⟩ := h.closure d hd hc
        obtain rfl := Except.ok.inj (hf.symm.trans hf')
        refine hne (heq ▸ List.filter_eq_nil_iff.mpr fun n hn hout => ?_)
        exact of_decide_eq_true hout (hspurious n hn)
  · intro h
    refine ⟨fun d hd hk => ?_, fun d hd hc => ?_⟩
    · obtain ⟨free, hf⟩ := hfree d hd
      by_cases hempty : free = ∅
      · rw [hf, hempty]
      · exact absurd ⟨free, hf, .knownCaptures hk hempty⟩ (h d hd _)
    · obtain ⟨free, hf⟩ := hfree d hd
      refine ⟨free, hf, fun n hn hself => ?_, fun n hn => ?_⟩
      · by_contra hout
        refine h d hd _ ⟨free, hf, .missingCapture hc rfl (List.ne_nil_of_mem (a := n) ?_)⟩
        exact List.mem_filter.mpr ⟨hn, decide_eq_true ⟨hself, hout⟩⟩
      · by_contra hout
        refine h d hd _ ⟨free, hf, .spuriousCapture hc rfl (List.ne_nil_of_mem (a := n) ?_)⟩
        exact List.mem_filter.mpr ⟨hn, decide_eq_true hout⟩

end Classification

/-- The instructions that the verifier meets from a block on, none if it does not come to an end. -/
def Arena.walk (a : Arena) (blk : BlockId) : List Item :=
  ((a.branchList (a.numBlocks + 1) blk).toOption.getD []).map fun x => x.2.item x.1

namespace Program

variable {p : Program} {known : NameSet}

/-- The blocks that a program covers exist, and conditionals lead from none of them back to itself. -/
structure Checkable (p : Program) : Prop where
  inRange : ∀ blk, p.Covers blk → blk < p.arena.numBlocks
  noCycle : ∀ blk, p.Covers blk → ¬TransGen p.arena.IfEdge blk blk

/-- Conditionals do not lead out of what a program covers. -/
theorem Checkable.branchClosed (h : p.Checkable) : p.arena.BranchClosed {blk | p.Covers blk} where
  edge := by
    rintro blk blk' ⟨root, hroot, hp⟩ he
    exact ⟨root, hroot, hp.tail he⟩
  inRange := h.inRange
  noCycle := h.noCycle

/-- It is enough that the entry leads to the bodies of all functions, and to no cycle of conditionals. -/
theorem Checkable.of_reaches (hg : p.arena.Guarded)
    (hf : ∀ f fn, p.functions.get? f = some fn → p.arena.Reaches fn.body) : p.Checkable := by
  have hreach : ∀ blk, p.Covers blk → p.arena.Reaches blk := by
    rintro blk ⟨root, hroot, hpath⟩
    have hstart : p.arena.Reaches root := by
      rcases hroot with rfl | ⟨f, fn, hfn, rfl⟩
      · exact .entry
      · exact hf f fn hfn
    exact hstart.trans (ReflTransGen.mono (fun _ _ he => .inr he) _ _ hpath)
  exact ⟨fun blk hb => hg.inRange blk (hreach blk hb),
    fun blk hb => hg.noIfCycle blk (hreach blk hb)⟩

/-- No violation is reported twice for one instruction. -/
theorem nodup_checkRecord (p : Program) (known : NameSet) (id : RecordId) (r : Record) :
    (p.checkRecord known id r).Nodup := by
  unfold checkRecord
  split
  next => simp
  next => split <;> simp
  next => split <;> simp
  next => simp

/-- A block that is covered can be checked, with all blocks that conditionals lead to. -/
theorem Checkable.exists_checkBlock (h : p.Checkable) (known : NameSet) {blk : BlockId}
    (hblk : p.Covers blk) :
    (∃ vs, p.checkBlock known blk = .ok vs ∧ Reports (p.Breaks known) (p.arena.walk blk) vs) ∧
      ∀ i, i ∈ p.arena.walk blk ↔
        ∃ blk', ReflTransGen p.arena.IfEdge blk blk' ∧ i ∈ p.arena.items blk' := by
  obtain ⟨l, hl, hin⟩ := h.branchClosed.exists_branchList_iff hblk
  have hwalk : p.arena.walk blk = l.map fun x => x.2.item x.1 := by
    rw [Arena.walk, hl]
    rfl
  rw [hwalk]
  refine ⟨⟨l.flatMap fun x => p.checkRecord known x.1 x.2, ?_, ?_⟩, fun i => ?_⟩
  · rw [checkBlock, hl]
    rfl
  · exact .flatMap (fun x _ => p.nodup_checkRecord known x.1 x.2) fun _ _ _ => mem_checkRecord
  · constructor
    · intro hi
      obtain ⟨x, hx, rfl⟩ := List.mem_map.mp hi
      obtain ⟨blk', hp, hx⟩ := (hin x).mp hx
      exact ⟨blk', hp, List.mem_map_of_mem hx⟩
    · rintro ⟨blk', hp, hi⟩
      obtain ⟨x, hx, rfl⟩ := List.mem_map.mp hi
      exact List.mem_map_of_mem ((hin x).mpr ⟨blk', hp, hx⟩)

/-- A program conforms exactly if none of the instructions that it covers breaks a rule. -/
theorem conforms_iff : p.Conforms known ↔
    ∀ i, (∃ blk, p.Covers blk ∧ i ∈ p.arena.items blk) → ∀ v, ¬p.Breaks known i v := by
  constructor
  · rintro h i ⟨blk, hblk, hi⟩ v hb
    cases hb with
    | functionSurvived hrhs =>
        have hno := h.noLiteral blk hblk i hi
        rw [hrhs] at hno
        cases hno
    | unknownTarget hrhs hout =>
        have hin := Table.contains_iff.mpr (h.target blk hblk i hi _ _ hrhs)
        rw [hout] at hin
        cases hin
    | indirectMismatch hrhs hne => exact hne (h.call blk hblk i hi _ _ _ hrhs)
  · intro h
    refine ⟨fun blk hblk i hi => ?_, fun blk hblk i hi captures target hrhs => ?_,
      fun blk hblk i hi callee args indirect hrhs => ?_⟩
    · cases hrhs : i.rhs with
      | fn params body => exact absurd (.functionSurvived hrhs) (h i ⟨blk, hblk, hi⟩ _)
      | op o => rfl
      | branch cond yes no => rfl
    · by_contra hout
      rw [← Table.contains_iff, Bool.not_eq_true] at hout
      exact h i ⟨blk, hblk, hi⟩ _ (.unknownTarget hrhs hout)
    · by_contra hne
      exact h i ⟨blk, hblk, hi⟩ _ (.indirectMismatch hrhs hne)

end Program

/-- A verdict goes through the decisions and then through the instructions of all blocks that the
program covers. -/
theorem verify_reports {source : Arena} {c : Classification} {p : Program}
    (hbody : ∀ d ∈ c.decisions.values, ∃ body, source.code d.body = .ok body) (hp : p.Checkable) :
    ∃ found kept visited, verify source c p = .ok (found ++ kept) ∧
      Reports (c.Breaks source) c.decisions.values found ∧
      Reports (p.Breaks c.known) visited kept ∧
      ∀ i, i ∈ visited ↔ ∃ blk, p.Covers blk ∧ i ∈ p.arena.items blk := by
  have hentry : p.Covers Arena.entry := ⟨Arena.entry, .inl rfl, .refl⟩
  have hfunction : ∀ fn ∈ p.functions.values, p.Covers fn.body := by
    intro fn hfn
    obtain ⟨f, hf⟩ := Table.mem_values_iff.mp hfn
    exact ⟨fn.body, .inr ⟨f, fn, hf, rfl⟩, .refl⟩
  obtain ⟨found, hfound, hdecisions⟩ := c.exists_checkDecisions hbody
  obtain ⟨⟨first, hfirst, hrep⟩, hin⟩ := hp.exists_checkBlock c.known hentry
  obtain ⟨bodies, hbodies, hreps⟩ := Reports.exists_mapM fun fn hfn =>
    (hp.exists_checkBlock c.known (hfunction fn hfn)).1
  refine ⟨found, first ++ bodies.flatten, _, ?_, hdecisions, hrep.append hreps, fun i => ?_⟩
  · rw [verify, hfound, hfirst, hbodies, ← List.append_assoc]
    rfl
  · rw [List.mem_append, hin, List.mem_flatMap]
    constructor
    · rintro (⟨blk, hpath, hi⟩ | ⟨fn, hfn, hi⟩)
      · exact ⟨blk, ⟨Arena.entry, .inl rfl, hpath⟩, hi⟩
      · obtain ⟨blk, hpath, hi⟩ := ((hp.exists_checkBlock c.known (hfunction fn hfn)).2 i).mp hi
        obtain ⟨f, hf⟩ := Table.mem_values_iff.mp hfn
        exact ⟨blk, ⟨fn.body, .inr ⟨f, fn, hf, rfl⟩, hpath⟩, hi⟩
    · rintro ⟨blk, ⟨root, rfl | ⟨f, fn, hf, rfl⟩, hpath⟩, hi⟩
      · exact .inl ⟨blk, hpath, hi⟩
      · have hfn : fn ∈ p.functions.values := Table.mem_values_iff.mpr ⟨f, hf⟩
        exact .inr ⟨fn, hfn,
          ((hp.exists_checkBlock c.known (hfunction fn hfn)).2 i).mpr ⟨blk, hpath, hi⟩⟩

/-- **Verdicts.** Where the entry of an arena leads to blocks that exist and to no cycle, it can be
classified, and the verifier comes to an end on every program without cycles of conditionals. The verdict
is clean exactly if the decisions agree with the free names of the functions and the instructions that
the program covers are those of a converted one. Otherwise it holds the rules that each decision breaks,
in the order of the decisions, and then those that each of these instructions breaks. -/
theorem verify_exact (source : Arena) (optimize : Bool)
    (hin : ∀ blk, source.Reaches blk → blk < source.numBlocks)
    (hno : ∀ blk, source.Reaches blk → ¬TransGen source.Edge blk blk) :
    ∃ c, source.classify optimize = .ok c ∧ ∀ p : Program, p.Checkable →
      (verify source c p = .ok [] ↔ c.Justified source ∧ p.Conforms c.known) ∧
      ∃ found kept visited, verify source c p = .ok (found ++ kept) ∧
        Reports (c.Breaks source) c.decisions.values found ∧
        Reports (p.Breaks c.known) visited kept ∧
        ∀ i, i ∈ visited ↔ ∃ blk, p.Covers blk ∧ i ∈ p.arena.items blk := by
  have hg : source.Guarded := ⟨hin, fun blk hr hcyc => hno blk hr (Arena.transGen_edge hcyc)⟩
  obtain ⟨code, hcode, hshows⟩ := hg.exists_code hno .entry
  refine ⟨_, Arena.classify_of_code_eq_ok hcode optimize, fun p hp => ?_⟩
  have hbody : ∀ d ∈ (code.classify optimize).val.decisions.values,
      ∃ body, source.code d.body = .ok body := by
    intro d hd
    obtain ⟨id, hid⟩ := Table.mem_values_iff.mp hd
    obtain ⟨m, hm, -, -, -, hblk⟩ := (code.concerns_classify optimize).decision id d hid
    have hr : source.Reaches d.body :=
      hblk ▸ hshows.reaches_iff.mpr ⟨m.body, Code.body_mem_blocks Arena.entry hm⟩
    obtain ⟨body, hb, -⟩ := hg.exists_code hno hr
    exact ⟨body, hb⟩
  have hfree : ∀ d ∈ (code.classify optimize).val.decisions.values, ∃ free,
      source.functionFreeNames (code.classify optimize).val.known d.params d.body = .ok free := by
    intro d hd
    obtain ⟨body, hb⟩ := hbody d hd
    exact ⟨_, Arena.functionFreeNames_eq hb⟩
  obtain ⟨found, kept, visited, hverify, hfound, hkept, hvisited⟩ := verify_reports hbody hp
  refine ⟨?_, found, kept, visited, hverify, hfound, hkept, hvisited⟩
  rw [hverify, Except.ok.injEq, List.append_eq_nil_iff, hfound.eq_nil_iff, hkept.eq_nil_iff,
    Classification.justified_iff hfree, Program.conforms_iff]
  simp only [hvisited]

/-- The program that keeps everything as it was, with one function in its table. -/
def Program.untouched : Program where
  functions := (∅ : Table Name Function).insert "h" ⟨["u"], 3⟩
  closures := ∅
  arena := .ofBlock .sample

/-- A program that was not converted does not conform. -/
theorem verify_exact_untouched :
    Program.untouched.Checkable ∧ ∃ c, (Arena.ofBlock Block.sample).classify true = .ok c ∧
      (verify (Arena.ofBlock Block.sample) c Program.untouched = .ok [] ↔
        c.Justified (Arena.ofBlock Block.sample) ∧ Program.untouched.Conforms c.known) ∧
      ¬Program.untouched.Conforms c.known := by
  have hshows := (Arena.ofBlock_unfolds Block.sample).shows
  have hbody : (Arena.ofBlock Block.sample).Reaches 3 :=
    .step (i := ⟨26, "h", .fn ["u"] 3⟩) .entry (by decide +kernel) (by decide)
  have hcheckable : Program.untouched.Checkable := by
    refine .of_reaches hshows.guarded fun f fn hf => ?_
    rw [Program.untouched, Table.get?_insert] at hf
    split at hf
    · cases hf
      exact hbody
    · cases hf
  obtain ⟨c, hc, hverdict⟩ := verify_exact (Arena.ofBlock Block.sample) true
    hshows.guarded.inRange fun _ => hshows.no_cycle
  refine ⟨hcheckable, c, hc, (hverdict _ hcheckable).1, fun hconforms => ?_⟩
  -- the first literal is still there
  have hi : ⟨6, "f", .fn ["x"] 1⟩ ∈ Program.untouched.arena.items Arena.entry := by decide +kernel
  cases hconforms.noLiteral Arena.entry ⟨Arena.entry, .inl rfl, .refl⟩ _ hi

end ClosureConversion
