import ClosureConversion.Proofs.Arena.Cycles
import ClosureConversion.Proofs.Conversion.Whole
import ClosureConversion.Verification

/-!
# Converted programs pass verification

The verifier works out the free names of every function again, with the known functions that were
decided in the end, and looks at every instruction that is left. On the result of a conversion it
finds nothing:

* a decision is the one that the free names ask for (`Converts.checkDecisions_eq`), because all of them
  are on record under the final known functions;
* an instruction of a converted block breaks no rule (`Code.Settled.checkRecord_eq_nil`), and the
  verifier meets no others (`Arena.Shows.exists_branchList`).
-/

namespace ClosureConversion

open Relation (ReflTransGen)

/-- If every step of a traversal succeeds with a result that has a property, so does the traversal. -/
theorem exists_mapM_eq_ok {α β ε : Type} {f : α → Except ε β} {P : β → Prop} {l : List α}
    (h : ∀ x ∈ l, ∃ y, f x = .ok y ∧ P y) : ∃ ys, l.mapM f = .ok ys ∧ ∀ y ∈ ys, P y := by
  induction l with
  | nil => exact ⟨[], rfl, fun _ hy => absurd hy List.not_mem_nil⟩
  | cons x l ih =>
      obtain ⟨y, hy, hP⟩ := h x List.mem_cons_self
      obtain ⟨ys, hys, hPs⟩ := ih fun x' hx => h x' (List.mem_cons_of_mem _ hx)
      refine ⟨y :: ys, ?_, List.forall_mem_cons.mpr ⟨hP, hPs⟩⟩
      rw [List.mapM_cons, hy, hys]
      rfl

/-- A traversal collects what its steps give. -/
theorem exists_mapM_flatten {α β ε : Type} {f : α → Except ε (List β)} {P : α → β → Prop}
    {l : List α} (h : ∀ x ∈ l, ∃ ys, f x = .ok ys ∧ ∀ y, y ∈ ys ↔ P x y) :
    ∃ parts, l.mapM f = .ok parts ∧ ∀ y, y ∈ parts.flatten ↔ ∃ x ∈ l, P x y := by
  induction l with
  | nil => exact ⟨[], rfl, fun y => by simp⟩
  | cons x l ih =>
      obtain ⟨ys, hys, hP⟩ := h x List.mem_cons_self
      obtain ⟨parts, hparts, hPs⟩ := ih fun x' hx => h x' (List.mem_cons_of_mem _ hx)
      refine ⟨ys :: parts, ?_, fun y => ?_⟩
      · rw [List.mapM_cons, hys, hparts]
        rfl
      · rw [List.flatten_cons, List.mem_append, hP, hPs, List.exists_mem_cons_iff]

/-! ## The instructions that the verifier meets -/

namespace Arena

/-- An instruction and, behind a conditional, what its two blocks lead to. -/
def spread (lead : BlockId → Except Fault (List (RecordId × Record))) (x : RecordId × Record) :
    Except Fault (List (RecordId × Record)) :=
  match x.2.rhs with
  | .branch _ yes no => do return x :: (← lead yes) ++ (← lead no)
  | _ => return [x]

/-- The list of a block puts together what its instructions spread to. -/
theorem branchList_succ (a : Arena) (fuel : Nat) (blk : BlockId) :
    a.branchList (fuel + 1) blk = do
      let _ ← a.requireBlock blk
      return (← (a.list blk).mapM (spread (a.branchList fuel))).flatten := rfl

/-- An instruction spreads to itself and to what its blocks lead to. -/
theorem exists_spread {lead : BlockId → Except Fault (List (RecordId × Record))}
    {P : BlockId → RecordId × Record → Prop} {x : RecordId × Record}
    (h : ∀ cond yes no, x.2.rhs = .branch cond yes no → ∀ blk, blk = yes ∨ blk = no →
      ∃ l, lead blk = .ok l ∧ ∀ y, y ∈ l ↔ P blk y) :
    ∃ l, spread lead x = .ok l ∧ ∀ y, y ∈ l ↔ y = x ∨ ∃ cond yes no, x.2.rhs = .branch cond yes no ∧
      ∃ blk, (blk = yes ∨ blk = no) ∧ P blk y := by
  unfold spread
  cases hrhs : x.2.rhs with
  | op o => exact ⟨[x], rfl, fun y => by simp⟩
  | fn params body => exact ⟨[x], rfl, fun y => by simp⟩
  | branch cond yes no =>
      obtain ⟨ly, hly, hyes⟩ := h cond yes no hrhs yes (.inl rfl)
      obtain ⟨ln, hln, hno⟩ := h cond yes no hrhs no (.inr rfl)
      refine ⟨x :: ly ++ ln, ?_, fun y => ?_⟩
      · dsimp only
        rw [hly, hln]
        rfl
      · simp [hyes, hno]

/-- Conditionals lead from blocks of a set to blocks of that set, which exist, and from none of them
back to itself. -/
structure BranchClosed (a : Arena) (s : Set BlockId) : Prop where
  edge : ∀ {blk blk'}, blk ∈ s → a.IfEdge blk blk' → blk' ∈ s
  inRange : ∀ blk ∈ s, blk < a.numBlocks
  noCycle : ∀ blk ∈ s, ¬Relation.TransGen a.IfEdge blk blk

/-- What is met from a block on are the instructions of the blocks that conditionals lead to. The fuel
is enough because `path`, the blocks on the way, has no repetition. -/
theorem BranchClosed.exists_branchList_path {a : Arena} {s : Set BlockId} (hs : a.BranchClosed s)
    {fuel : Nat} {path : List BlockId} {blk : BlockId} (hblk : blk ∈ s)
    (hpath : ∀ b ∈ path, b ∈ s ∧ ReflTransGen a.IfEdge b blk) (hn : path.Nodup)
    (hf : a.numBlocks < fuel + path.length) :
    ∃ l, a.branchList fuel blk = .ok l ∧
      ∀ x, x ∈ l ↔ ∃ b, ReflTransGen a.IfEdge blk b ∧ x ∈ a.list b := by
  induction fuel generalizing path blk with
  | zero =>
      have hlen := length_le_numBlocks (fun b hb => hs.inRange b (hpath b hb).1) hn
      omega
  | succ fuel ih =>
      obtain ⟨b, hb⟩ := exists_bounds? (hs.inRange blk hblk)
      have hblock : a.requireBlock blk = .ok b := by
        rw [requireBlock, hb]
      have hedge : ∀ {x cond yes no blk'}, x ∈ a.list blk → x.2.rhs = .branch cond yes no →
          blk' = yes ∨ blk' = no → a.IfEdge blk blk' := fun hx hrhs hor =>
        ⟨_, List.mem_map_of_mem hx, _, _, _, hrhs, hor⟩
      have hstep : ∀ x ∈ a.list blk, ∃ l, spread (a.branchList fuel) x = .ok l ∧
          ∀ y, y ∈ l ↔ y = x ∨ ∃ cond yes no, x.2.rhs = .branch cond yes no ∧
            ∃ blk', (blk' = yes ∨ blk' = no) ∧
              ∃ b, ReflTransGen a.IfEdge blk' b ∧ y ∈ a.list b := by
        intro x hx
        refine exists_spread fun cond yes no hrhs blk' hor => ?_
        have he : a.IfEdge blk blk' := hedge hx hrhs hor
        have hfresh : blk' ∉ path := fun hmem =>
          hs.noCycle blk' (hpath blk' hmem).1 (Relation.TransGen.tail' (hpath blk' hmem).2 he)
        refine ih (hs.edge hblk he) ?_ (List.nodup_cons.mpr ⟨hfresh, hn⟩) ?_
        · intro b hb
          rcases List.mem_cons.mp hb with rfl | hb
          · exact ⟨hs.edge hblk he, .refl⟩
          · exact (hpath b hb).imp_right fun hp => hp.tail he
        · rw [List.length_cons]
          omega
      obtain ⟨reached, hreached, hin⟩ := exists_mapM_flatten hstep
      refine ⟨reached.flatten, ?_, fun y => ?_⟩
      · rw [branchList_succ, hblock, hreached]
        rfl
      · rw [hin]
        constructor
        · rintro ⟨x, hx, rfl | ⟨cond, yes, no, hrhs, blk', hor, b, hp, hy⟩⟩
          · exact ⟨blk, .refl, hx⟩
          · exact ⟨b, hp.head (hedge hx hrhs hor), hy⟩
        · rintro ⟨b, hp, hy⟩
          rcases hp.cases_head with rfl | ⟨blk', ⟨i, hi, cond, yes, no, hrhs, hor⟩, hp⟩
          · exact ⟨y, hy, .inl rfl⟩
          · obtain ⟨x, hx, rfl⟩ := List.mem_map.mp hi
            exact ⟨x, hx, .inr ⟨cond, yes, no, hrhs, blk', hor, b, hp, hy⟩⟩

/-- Where conditionals do not lead astray, the verifier lists the records of the blocks they lead
to. -/
theorem BranchClosed.exists_branchList_iff {a : Arena} {s : Set BlockId} (hs : a.BranchClosed s)
    {blk : BlockId} (hblk : blk ∈ s) :
    ∃ l, a.branchList (a.numBlocks + 1) blk = .ok l ∧
      ∀ x, x ∈ l ↔ ∃ b, ReflTransGen a.IfEdge blk b ∧ x ∈ a.list b := by
  refine hs.exists_branchList_path hblk ?_ (List.nodup_singleton blk) ?_
  · intro b hb
    obtain rfl := List.mem_singleton.mp hb
    exact ⟨hblk, .refl⟩
  · rw [List.length_singleton]
    omega

/-- These are instructions of blocks of the set. -/
theorem BranchClosed.exists_branchList {a : Arena} {s : Set BlockId} (hs : a.BranchClosed s)
    {blk : BlockId} (hblk : blk ∈ s) :
    ∃ l, a.branchList (a.numBlocks + 1) blk = .ok l ∧
      ∀ x ∈ l, ∃ b ∈ s, x.2.item x.1 ∈ a.items b := by
  obtain ⟨l, hl, hin⟩ := hs.exists_branchList_iff hblk
  refine ⟨l, hl, fun x hx => ?_⟩
  obtain ⟨b, hp, hx⟩ := (hin x).mp hx
  refine ⟨b, ?_, List.mem_map_of_mem hx⟩
  clear hx
  induction hp with
  | refl => exact hblk
  | tail _ he ih => exact hs.edge ih he

/-- What a block and its conditionals lead to are instructions of the blocks of the code shown. -/
theorem Shows.exists_branchList {a : Arena} {blk : BlockId} {c : Code} (h : a.Shows blk c) :
    ∃ l, a.branchList (a.numBlocks + 1) blk = .ok l ∧
      ∀ x ∈ l, ∃ y ∈ c.blocks blk, x.2.item x.1 ∈ y.2.heads := by
  have hs : a.BranchClosed {b | ∃ d, (b, d) ∈ c.blocks blk} := by
    refine ⟨?_, ?_, ?_⟩
    · rintro b b' ⟨d, hd⟩ he
      obtain ⟨y, hy, rfl⟩ := (h.of_mem_blocks hd).exists_child (.inr he)
      exact ⟨y.2, Code.child_mem_blocks hd hy⟩
    · rintro b ⟨d, hd⟩
      obtain ⟨⟨bounds, hb⟩, -⟩ := h _ hd
      exact bounds?_lt hb
    · rintro b ⟨d, hd⟩ hcyc
      exact (h.of_mem_blocks hd).not_transGen (transGen_edge hcyc)
  obtain ⟨l, hl, hin⟩ := hs.exists_branchList ⟨c, List.mem_cons_self⟩
  refine ⟨l, hl, fun x hx => ?_⟩
  obtain ⟨b, ⟨d, hd⟩, hi⟩ := hin x hx
  exact ⟨_, hd, (h _ hd).2 ▸ hi⟩

end Arena

/-! ## Converted instructions -/

namespace Program

variable {p : Program} {known : NameSet}

/-- A converted operation of a source program breaks no rule. -/
theorem checkRecord_op {id : RecordId} {r : Record} {o : Operation} {marked : Bool}
    (hr : r.rhs = .op (if marked then o.indirect else o)) (hsource : o.isSource = true)
    (hmarked : ∀ callee ∈ o.callee?, marked = true ↔ callee ∉ known) :
    p.checkRecord known id r = [] := by
  unfold checkRecord
  rw [hr]
  cases o with
  | app callee args indirect =>
      have hdirect : indirect = false := by simpa [Operation.isSource] using hsource
      have hm : marked = true ↔ callee ∉ known := hmarked callee rfl
      subst hdirect
      have hne : marked ≠ known.contains callee := by
        intro heq
        rw [heq, NameSet.contains_iff] at hm
        exact iff_not_self hm
      cases marked with
      | true => exact if_neg hne
      | false => exact if_neg hne
  | makeClosure captures target => exact absurd hsource Bool.false_ne_true
  | _ => simp only [Operation.indirect, ite_self]

end Program

/-- No instruction of a converted block breaks a rule, if there are functions for its literals. -/
theorem Code.Settled.checkRecord_eq_nil {p : Program} {c : Classification} {earlier : List Member}
    {d : Code} (h : d.Settled c earlier)
    (hfns : ∀ s ∈ d.ownSites earlier, p.functions.contains s.member.ident = true) {id : RecordId}
    {r : Record} (hr : r.item id ∈ (d.converted c).heads) : p.checkRecord c.known id r = [] := by
  induction d generalizing earlier with
  | done => exact absurd hr List.not_mem_nil
  | op id' ident o rest ih =>
      rcases List.mem_cons.mp hr with hitem | hr
      · obtain ⟨rfl, rfl, hrhs⟩ := Item.mk.inj hitem
        refine Program.checkRecord_op hrhs (h.source o List.mem_cons_self) fun callee hc => ?_
        refine h.call (id, callee) (List.mem_append_left _ ?_)
        exact List.mem_map_of_mem (Option.mem_toList.mpr hc)
      · exact ih h.op hfns hr
  | branch id' ident cond yesBlk noBlk yes no rest _ _ ih =>
      rcases List.mem_cons.mp hr with hitem | hr
      · obtain ⟨rfl, rfl, hrhs⟩ := Item.mk.inj hitem
        rw [Program.checkRecord, hrhs]
      · exact ih h.branch.2.2 hfns hr
  | fn id' ident params blk body rest _ ih =>
      have hrest := ih h.fn fun s hs => hfns s (List.mem_cons_of_mem _ hs)
      rw [h.converted_fn] at hr
      split at hr
      · rcases List.mem_cons.mp hr with hitem | hr
        · obtain ⟨rfl, rfl, hrhs⟩ := Item.mk.inj hitem
          rw [Program.checkRecord, hrhs]
          exact if_pos (hfns _ List.mem_cons_self)
        · exact hrest hr
      · exact hrest hr

/-! ## Decisions -/

/-- A closure that captures its free names, its own apart, breaks no rule if they are read in its body
and are no parameters. -/
theorem Classification.checkClosure_eq_nil {d : Decision} {free reads : NameSet}
    (h : ∀ n ∈ free, n ∈ reads ∧ n ∉ d.params) :
    checkClosure (free.erase d.name).toList d free reads = [] := by
  have hmissing : (free.toList.filter fun n => n ≠ d.name ∧ n ∉ (free.erase d.name).toList) = [] := by
    refine List.filter_eq_nil_iff.mpr fun n hn hmiss => ?_
    obtain ⟨hne, hout⟩ := of_decide_eq_true hmiss
    exact hout (NameSet.mem_erase.mpr ⟨hn, hne⟩)
  have hspurious : ((free.erase d.name).toList.filter fun n =>
      n ∉ free ∨ n ∉ reads ∨ n ∈ d.params) = [] := by
    refine List.filter_eq_nil_iff.mpr fun n hn hbad => ?_
    obtain ⟨hfree, -⟩ := NameSet.mem_erase.mp hn
    obtain ⟨hread, hparam⟩ := h n hfree
    rcases of_decide_eq_true hbad with hno | hunread | hin
    · exact hno hfree
    · exact hunread hread
    · exact hparam hin
  unfold checkClosure
  dsimp only
  rw [hmissing, hspurious, if_pos rfl, if_pos rfl, List.append_nil]

/-- What the check of a decision reports, given the code of the body. -/
def Classification.judge (c : Classification) (d : Decision) (body : Code) : List Violation :=
  let free := body.bodyFreeNames c.known d.params
  match d.standing with
  | .known => if free.isEmpty then [] else [.knownCaptures d.name free.toList]
  | .closure => checkClosure ((c.captures? d.name).getD []) d free body.reads

/-- Where the body of a decided function unfolds, the check comes to an end. -/
theorem Classification.checkDecision_eq {c : Classification} {source : Arena} {d : Decision}
    {body : Code} (h : source.code d.body = .ok body) :
    c.checkDecision source d = .ok (c.judge d body) := by
  have hfree : source.functionFreeNames c.known d.params d.body =
      .ok (body.bodyFreeNames c.known d.params) := Arena.functionFreeNames_eq h
  have hreads : source.reads d.body = .ok body.reads := Arena.reads_eq h
  simp only [checkDecision, judge, hfree, hreads]
  cases d.standing with
  | known => rfl
  | closure => rfl

namespace Converts

variable {a : Arena} {code : Code} {c : Classification} {p : Program} {x : BlockId × Code}

/-- The decision on a literal passes: it was made under the free names that the final known functions
leave. -/
theorem judge_eq_nil (h : Converts a code c p) {s : Site} (hs : s ∈ code.sites) :
    c.judge (s.decision c.known) s.member.body = [] := by
  unfold Classification.judge
  by_cases hk : s.member.ident ∈ c.known
  · have hfree : (s.member.body.bodyFreeNames c.known s.member.params).isEmpty = true :=
      NameSet.isEmpty_iff.mpr (h.supported _ (List.mem_map_of_mem hs) hk)
    simp only [Site.decision, if_pos hk]
    exact if_pos hfree
  · have hcaptures : (c.captures? s.member.ident).getD [] =
        ((s.member.body.bodyFreeNames c.known s.member.params).erase s.member.ident).toList := by
      rw [Classification.captures?, h.records.entry s hs, Site.entry?, if_neg (fun hn => hk hn.1),
        Option.getD_some, Member.captures, if_neg hk]
      rfl
    simp only [Site.decision, if_neg hk, hcaptures]
    refine Classification.checkClosure_eq_nil fun n hn => ?_
    obtain ⟨hbody, hparam⟩ := Code.mem_bodyFreeNames.mp hn
    exact ⟨hbody.mem_reads, hparam⟩

/-- All decisions of a conversion pass. -/
theorem checkDecisions_eq (h : Converts a code c p) : c.checkDecisions a = .ok [] := by
  have hstep : ∀ d ∈ c.decisions.values, ∃ l, c.checkDecision a d = .ok l ∧ l = [] := by
    intro d hd
    obtain ⟨id, hid⟩ := Table.mem_values_iff.mp hd
    obtain ⟨s, hs, -, rfl⟩ := h.records.exists_site hid
    have hbody : a.code s.member.blk = .ok s.member.body :=
      h.unfolds.code_eq (Code.body_mem_blocks Arena.entry (List.mem_map_of_mem hs))
    exact ⟨_, Classification.checkDecision_eq hbody, h.judge_eq_nil hs⟩
  obtain ⟨checked, hchecked, hnil⟩ := exists_mapM_eq_ok hstep
  rw [Classification.checkDecisions, hchecked]
  exact congrArg Except.ok (List.flatten_eq_nil_iff.mpr hnil)

/-- A converted block passes, with the blocks that its conditionals lead to. -/
theorem checkBlock_eq (h : Converts a code c p) (hs : code.erase.IsSource)
    (hx : x ∈ code.blocks Arena.entry) : p.checkBlock c.known x.1 = .ok [] := by
  obtain ⟨l, hl, hin⟩ := (h.applied.shows_converted hx).exists_branchList
  rw [Program.checkBlock, hl]
  refine congrArg Except.ok (List.flatMap_eq_nil_iff.mpr fun y hy => ?_)
  obtain ⟨z, hz, hitem⟩ := hin y hy
  obtain ⟨w, hw, rfl⟩ := Code.exists_of_mem_blocks_converted hz
  have hwc := Code.blocks_subset_of_mem_blocks hx hw
  refine (h.settled hs hwc).checkRecord_eq_nil (fun s hsite => ?_) hitem
  refine h.contains_functions_iff.mpr ⟨s.member, List.mem_map_of_mem ?_, rfl⟩
  exact (Code.mem_sites_iff Arena.entry).mpr ⟨w, hwc, hsite⟩

/-- A converted source program passes. -/
theorem verify_eq (h : Converts a code c p) (hs : code.erase.IsSource) :
    verify a c p = .ok [] := by
  have hstep : ∀ fn ∈ p.functions.values, ∃ l, p.checkBlock c.known fn.body = .ok l ∧ l = [] := by
    intro fn hfn
    obtain ⟨f, hf⟩ := Table.mem_values_iff.mp hfn
    obtain ⟨m, hm, -, rfl⟩ := h.applied.exists_literal hf
    exact ⟨[], h.checkBlock_eq hs (Code.body_mem_blocks Arena.entry hm), rfl⟩
  obtain ⟨bodies, hbodies, hnil⟩ := exists_mapM_eq_ok hstep
  have hentry : p.checkBlock c.known Arena.entry = .ok [] := h.checkBlock_eq hs List.mem_cons_self
  rw [verify, h.checkDecisions_eq, hentry, hbodies]
  exact congrArg Except.ok (List.flatten_eq_nil_iff.mpr hnil)

end Converts

/-- **Verification.** With or without the optimisation, a program whose literals are unique and called
in scope can be classified and converted, and the verifier finds no violation in the result. -/
theorem verify_applyTo (t : Block) (optimize : Bool) (hs : t.IsSource) (hu : t.UniqueLiterals)
    (hc : t.CallsInScope t.literalNames []) :
    ∃ c p, (Arena.ofBlock t).classify optimize = .ok c ∧ c.applyTo (Arena.ofBlock t) = .ok p ∧
      verify (Arena.ofBlock t) c p = .ok [] := by
  obtain ⟨c, p, hclassify, hp, h⟩ := Block.exists_converts hu hc optimize
  refine ⟨c, p, hclassify, hp, h.verify_eq ?_⟩
  rw [t.erase_number 1 2]
  exact hs

/-- A program converted without the optimisation passes. -/
theorem verify_applyTo_sample :
    Block.sample.IsSource ∧ Block.sample.UniqueLiterals ∧
      Block.sample.CallsInScope Block.sample.literalNames [] ∧
      ∃ c p, (Arena.ofBlock Block.sample).classify false = .ok c ∧
        c.applyTo (Arena.ofBlock Block.sample) = .ok p ∧
        verify (Arena.ofBlock Block.sample) c p = .ok [] :=
  ⟨by decide, by decide, by decide,
    verify_applyTo Block.sample false (by decide) (by decide) (by decide)⟩

end ClosureConversion
