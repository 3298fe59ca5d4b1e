import ClosureConversion.Proofs.Arena.Mapping
import ClosureConversion.Proofs.Conversion.Flattening
import ClosureConversion.Proofs.Conversion.Idempotence
import ClosureConversion.Proofs.Faults
import ClosureConversion.Proofs.Renaming.Exploration

/-!
# Renaming commutes with conversion

In an arena every record is renamed, except that the sentinels of blocks, which stand for no
instruction, keep their empty name (`Arena.rename`). Building commutes with renaming
(`Arena.ofBlock_rename`), and so does carrying out decisions (`Classification.applyTo_rename`). The
verifier goes through the functions of a program in the order of their names, which a renaming may
change, so that it reports the renamed violations in some order (`Applied.verify_rename`).
-/

namespace ClosureConversion

variable (r : Name ↪ Name)

/-! ## Arenas -/

/-- A record with its names replaced; a sentinel has no name to replace. -/
def Record.rename (sentinel : Bool) (rec : Record) : Record :=
  { rec with ident := if sentinel then rec.ident else r rec.ident, rhs := rec.rhs.rename r }

namespace Arena

variable {a : Arena} {id : RecordId}

/-- Whether a record delimits a block. -/
def isSentinel (a : Arena) (id : RecordId) : Bool :=
  a.blocks.any fun b => b.top == id || b.bottom == id

/-- The test for sentinels: they begin and end the blocks. -/
theorem isSentinel_iff : a.isSentinel id = true ↔ a.IsTop id ∨ a.IsBottom id := by
  simp only [isSentinel, Array.any_eq_true, Bool.or_eq_true, beq_iff_eq, IsTop, IsBottom, bounds?]
  constructor
  · rintro ⟨blk, hlt, h | h⟩
    · exact .inl ⟨blk, _, Array.getElem?_eq_getElem hlt, h⟩
    · exact .inr ⟨blk, _, Array.getElem?_eq_getElem hlt, h⟩
  · rintro (⟨blk, b, hb, h⟩ | ⟨blk, b, hb, h⟩)
    · obtain ⟨hlt, rfl⟩ := Array.getElem?_eq_some_iff.mp hb
      exact ⟨blk, hlt, .inl h⟩
    · obtain ⟨hlt, rfl⟩ := Array.getElem?_eq_some_iff.mp hb
      exact ⟨blk, hlt, .inr h⟩

/-- The sentinels of an arena with one more block. -/
theorem isSentinel_newBlock (a : Arena) (id : RecordId) :
    a.newBlock.isSentinel id =
      (a.isSentinel id || (a.records.size == id || a.records.size + 1 == id)) := by
  rw [isSentinel, newBlock, Array.any_push, isSentinel]

/-- The number of the next record is not that of a sentinel. -/
theorem Orderly.isSentinel_size (h : a.Orderly) : a.isSentinel a.records.size = false := by
  rw [Bool.eq_false_iff]
  intro hs
  rcases isSentinel_iff.mp hs with ht | hb
  · exact Nat.lt_irrefl _ (h.top_lt ht)
  · exact Nat.lt_irrefl _ (h.bottom_lt hb)

/-- Instructions are not sentinels: they have neighbours on both sides. -/
theorem Orderly.isSentinel_of_mem_items (h : a.Orderly) {blk : BlockId} {i : Item}
    (hi : i ∈ a.items blk) : a.isSentinel i.id = false := by
  obtain ⟨⟨y, hy⟩, x, hx⟩ := h.exists_neighbours hi
  rw [Bool.eq_false_iff]
  intro hs
  rcases isSentinel_iff.mp hs with ht | hb
  · exact h.next_ne (h.prev_top ht) x hx
  · rw [h.next_bottom hb] at hy
    cases hy

/-- An arena with the names of its instructions replaced. -/
def rename (a : Arena) : Arena := a.mapRecords fun id rec => rec.rename r (a.isSentinel id)

/-- Renaming leaves the sentinels of all blocks. -/
@[simp] theorem bounds?_rename (a : Arena) (blk : BlockId) :
    (a.rename r).bounds? blk = a.bounds? blk := rfl

/-- Renaming leaves the number of blocks. -/
@[simp] theorem numBlocks_rename (a : Arena) : (a.rename r).numBlocks = a.numBlocks := rfl

/-- Renaming leaves the number of records. -/
@[simp] theorem size_rename (a : Arena) : (a.rename r).records.size = a.records.size :=
  size_mapRecords ..

/-- A record of a renamed arena is the renamed record. -/
theorem record?_rename (a : Arena) (id : RecordId) :
    (a.rename r).record? id = (a.record? id).map (Record.rename r (a.isSentinel id)) :=
  record?_mapRecords ..

/-- Renaming leaves the predecessors. -/
@[simp] theorem prev?_rename (a : Arena) (id : RecordId) : (a.rename r).prev? id = a.prev? id := by
  rw [prev?, record?_rename, Option.bind_map]
  rfl

/-- Changing a record commutes with renaming if it does so for every record. -/
theorem rename_modify (a : Arena) (id : RecordId) {f f' : Record → Record}
    (hf : ∀ s rec, (f rec).rename r s = f' (rec.rename r s)) :
    (a.modify id f).rename r = (a.rename r).modify id f' := by
  refine ext_record? rfl fun j => ?_
  rw [record?_rename, record?_modify, record?_modify, record?_rename]
  have hs : (a.modify id f).isSentinel j = a.isSentinel j := rfl
  rw [hs]
  split
  · rw [Option.map_map, Option.map_map]
    exact congrArg (Option.map · _) (funext fun rec => hf _ rec)
  · rfl

/-- Setting a renamed right-hand side. -/
theorem rename_setRhs (a : Arena) (id : RecordId) (rhs : Rhs BlockId) :
    (a.setRhs id rhs).rename r = (a.rename r).setRhs id (rhs.rename r) :=
  a.rename_modify r id fun _ _ => rfl

/-- Setting a successor in a renamed arena. -/
theorem rename_linkNext (a : Arena) (place next : Option RecordId) :
    (a.linkNext place next).rename r = (a.rename r).linkNext place next := by
  cases place with
  | none => rfl
  | some p => exact a.rename_modify r p fun _ _ => rfl

/-- Setting a predecessor in a renamed arena. -/
theorem rename_linkPrev (a : Arena) (place prev : Option RecordId) :
    (a.linkPrev place prev).rename r = (a.rename r).linkPrev place prev := by
  cases place with
  | none => rfl
  | some p => exact a.rename_modify r p fun _ _ => rfl

/-- Detaching from a renamed arena. -/
theorem rename_detach (a : Arena) (id : RecordId) :
    (a.detach id).rename r = (a.rename r).detach id := by
  cases hr : a.record? id with
  | none =>
      have hr' : (a.rename r).record? id = none := by rw [record?_rename, hr, Option.map_none]
      unfold detach
      rw [hr, hr']
  | some rec =>
      have hr' : (a.rename r).record? id = some (rec.rename r (a.isSentinel id)) := by
        rw [record?_rename, hr, Option.map_some]
      have hclear : ∀ a : Arena, (a.modify id ({ · with prev := none, next := none })).rename r =
          (a.rename r).modify id ({ · with prev := none, next := none }) :=
        fun a => a.rename_modify r id fun _ _ => rfl
      rw [detach_eq hr, detach_eq hr', hclear, rename_linkPrev, rename_linkNext]
      rfl

/-- Adding a block to a renamed arena. -/
theorem rename_newBlock (a : Arena) : a.newBlock.rename r = (a.rename r).newBlock := by
  refine ext_record? ?_ fun j => ?_
  · simp only [rename, mapRecords, newBlock, Array.size_mapIdx]
  · rw [record?_rename, record?_newBlock, record?_newBlock, record?_rename, size_rename,
      isSentinel_newBlock]
    by_cases hbottom : j = a.records.size + 1
    · rw [if_pos hbottom, if_pos hbottom, hbottom]
      simp [Record.rename, Rhs.rename, Operation.rename]
    · by_cases htop : j = a.records.size
      · rw [if_neg hbottom, if_neg hbottom, if_pos htop, if_pos htop, htop]
        simp [Record.rename, Rhs.rename, Operation.rename]
      · have hnew : (a.records.size == j || a.records.size + 1 == j) = false := by
          simp [Ne.symm htop, Ne.symm hbottom]
        rw [if_neg hbottom, if_neg hbottom, if_neg htop, if_neg htop, hnew, Bool.or_false]

/-- Appending a renamed instruction. -/
theorem rename_push (h : a.Orderly) (blk : BlockId) (ident : Name) (rhs : Rhs BlockId) :
    (a.push blk ident rhs).rename r = (a.rename r).push blk (r ident) (rhs.rename r) := by
  cases hb : a.bounds? blk with
  | none =>
      rw [push_of_bounds?_eq_none hb, push_of_bounds?_eq_none ((bounds?_rename r a blk).trans hb)]
  | some b =>
      have hgrown : ∀ prev next, rename r ⟨a.records.push ⟨ident, rhs, prev, next⟩, a.blocks⟩ =
          ⟨(a.rename r).records.push ⟨r ident, rhs.rename r, prev, next⟩, a.blocks⟩ := by
        intro prev next
        refine ext_record? rfl fun j => ?_
        have hs : isSentinel ⟨a.records.push ⟨ident, rhs, prev, next⟩, a.blocks⟩ j =
            a.isSentinel j := rfl
        have hold := record?_rename r a j
        rw [record?_rename, hs]
        simp only [record?, Array.getElem?_push, size_rename] at hold ⊢
        split
        next hj => rw [hj, h.isSentinel_size]; rfl
        next => exact hold.symm
      rw [push_eq hb, push_eq ((bounds?_rename r a blk).trans hb), rename_linkPrev,
        rename_linkNext, hgrown, prev?_rename, size_rename]
      rfl

/-- The verifier meets the same instructions, renamed. -/
theorem branchList_rename (a : Arena) (fuel : Nat) (blk : BlockId) :
    (a.rename r).branchList fuel blk = (a.branchList fuel blk).map
      (List.map (changed fun id rec => rec.rename r (a.isSentinel id))) := by
  have hnext : ∀ id rec, (Record.rename r (a.isSentinel id) rec).next = rec.next :=
    fun _ _ => rfl
  have hbranches : ∀ id rec,
      (Record.rename r (a.isSentinel id) rec).rhs.branches? = rec.rhs.branches? := by
    intro id rec
    show (rec.rhs.rename r).branches? = rec.rhs.branches?
    cases rec.rhs <;> rfl
  exact branchList_mapRecords hnext hbranches fuel blk

/-- Lowering commutes with renaming. -/
theorem rename_lower (h : a.Built) (blk : BlockId) (t : Block) :
    (a.lower blk t).rename r = (a.rename r).lower blk (t.rename r) := by
  induction t generalizing a blk with
  | done => rfl
  | op ident o rest ih =>
      have hpush : (a.push blk ident (.op o)).Built := h.edit (.push blk ident (.op o))
      simp only [lower, Block.rename]
      rw [ih hpush, rename_push r h.orderly]
      rfl
  | fn ident params body rest ihb ih =>
      have hnew : a.newBlock.Built := h.edit .newBlock
      have hbody := hnew.lower a.numBlocks body
      have hpush : ((a.newBlock.lower a.numBlocks body).push blk ident
          (.fn params a.numBlocks)).Built := hbody.edit (.push blk ident (.fn params a.numBlocks))
      simp only [lower, Block.rename]
      rw [ih hpush, rename_push r hbody.orderly, ihb hnew, rename_newBlock]
      rfl
  | branch ident cond yes no rest ihy ihn ih =>
      have hnew : a.newBlock.Built := h.edit .newBlock
      have hyes := hnew.lower a.numBlocks yes
      set a₁ := a.newBlock.lower a.numBlocks yes with ha₁
      have hnew₁ : a₁.newBlock.Built := hyes.edit .newBlock
      have hno := hnew₁.lower a₁.numBlocks no
      have hpush : ((a₁.newBlock.lower a₁.numBlocks no).push blk ident
          (.branch cond a.numBlocks a₁.numBlocks)).Built :=
        hno.edit (.push blk ident (.branch cond a.numBlocks a₁.numBlocks))
      have hfirst : (a.rename r).newBlock.lower a.numBlocks (yes.rename r) = a₁.rename r := by
        rw [ha₁, ihy hnew, rename_newBlock]
      simp only [lower, Block.rename, numBlocks_rename, hfirst, ← ha₁]
      rw [ih hpush, rename_push r hno.orderly, ihn hnew₁, rename_newBlock]
      rfl

/-- The arena of a renamed block is the renamed arena. -/
theorem ofBlock_rename (t : Block) : ofBlock (t.rename r) = (ofBlock t).rename r := by
  have hempty : empty.rename r = empty := rename_newBlock r ⟨#[], #[]⟩
  rw [ofBlock, ofBlock, rename_lower r .empty, hempty]

end Arena

/-! ## Carrying out decisions -/

/-- A function of the function table with its parameters renamed. -/
def Function.rename (f : Function) : Function := ⟨f.params.map r, f.body⟩

/-- A program with all its names replaced. -/
def Program.rename (p : Program) : Program where
  functions := p.functions.rename r (Function.rename r)
  closures := p.closures.rename r (List.map r)
  arena := p.arena.rename r

/-- A renamed call is made indirect as the call is. -/
theorem Rhs.indirect?_rename (rhs : Rhs BlockId) :
    (rhs.rename r).indirect? = rhs.indirect?.map (Rhs.rename r) := by
  cases rhs with
  | op o => cases o <;> rfl
  | fn params body => rfl
  | branch cond yes no => rfl

namespace Classification

variable {a a' : Arena} {id : RecordId} {d : Decision} {c : Classification} {p : Program}

/-- The record of an item, renamed. -/
theorem exists_record?_rename {i : Item} (h : a.item? id = some i) :
    ∃ rec, (a.rename r).record? id = some rec ∧ rec.rhs = i.rhs.rename r := by
  obtain ⟨rec, hrec, rfl⟩ := Option.map_eq_some_iff.mp h
  refine ⟨rec.rename r (a.isSentinel id), ?_, rfl⟩
  rw [Arena.record?_rename, hrec, Option.map_some]

/-- Calls are marked alike under other names. -/
theorem markCalls_rename {ids : List RecordId} (h : markCalls ids a = .ok a') :
    markCalls ids (a.rename r) = .ok (a'.rename r) := by
  induction ids generalizing a with
  | nil =>
      obtain rfl : a = a' := Except.ok.inj h
      rfl
  | cons id ids ih =>
      obtain ⟨i, rhs, hi, hrhs, hrest⟩ := markCalls_cons h
      obtain ⟨rec, hrec, hreceq⟩ := exists_record?_rename r hi
      have hind : rec.rhs.indirect? = some (rhs.rename r) := by
        rw [hreceq, Rhs.indirect?_rename, hrhs, Option.map_some]
      simp only [markCalls, Arena.requireRecord, Arena.markIndirect?, hrec, Option.bind_some, hind,
        Option.map_some]
      rw [← ih hrest, Arena.rename_setRhs]
      rfl

/-- A decision applies alike under other names. -/
theorem applies_rename (d : Decision) (rhs : Rhs BlockId) :
    applies (d.rename r) (rhs.rename r) = applies d rhs := by
  cases rhs with
  | op o =>
      cases o with
      | makeClosure captures target =>
          simp only [applies, Rhs.rename, Operation.rename, Decision.rename]
          rw [Bool.eq_iff_iff, beq_iff_eq, beq_iff_eq, r.injective.eq_iff]
      | _ => rfl
  | fn params body => rfl
  | branch cond yes no => rfl

/-- A decision is carried out alike under other names. -/
theorem applyAction_rename (a : Arena) (id : RecordId) (d : Decision) :
    applyAction (a.rename r) id (d.rename r) = (applyAction a id d).rename r := by
  unfold applyAction
  cases hd : d.action with
  | remove =>
      simp only [Decision.rename, hd, Action.rename]
      exact (a.rename_detach r id).symm
  | makeClosure captures =>
      simp only [Decision.rename, hd, Action.rename]
      exact (a.rename_setRhs r id (.op (.makeClosure captures d.name))).symm

/-- Decisions are carried out in the order of their records, which a renaming keeps. -/
theorem applyDecisions_rename {entries : List (RecordId × Decision)}
    {functions functions' : Table Name Function}
    (h : applyDecisions entries functions a = .ok (functions', a')) :
    applyDecisions (entries.map fun e => (e.1, e.2.rename r))
        (functions.rename r (Function.rename r)) (a.rename r) =
      .ok (functions'.rename r (Function.rename r), a'.rename r) := by
  induction entries generalizing functions a with
  | nil =>
      obtain ⟨rfl, rfl⟩ := Prod.mk.inj (Except.ok.inj h)
      rfl
  | cons e entries ih =>
      obtain ⟨id, d⟩ := e
      obtain ⟨i, hi, happlies, hrest⟩ := applyDecisions_cons h
      obtain ⟨rec, hrec, hrhs⟩ := exists_record?_rename r hi
      have happlies' : applies (d.rename r) rec.rhs = true := by
        rw [hrhs, applies_rename, happlies]
      have hrest' := ih hrest
      rw [Table.rename_insert, ← applyAction_rename] at hrest'
      rw [List.map_cons, applyDecisions, Arena.requireRecord, hrec]
      exact (if_pos happlies').trans hrest'

/-- What it takes to apply a classification. -/
theorem exists_of_applyTo (h : c.applyTo a = .ok p) :
    ∃ marked functions converted, markCalls c.closureCalls.keys a = .ok marked ∧
      applyDecisions c.decisions.entries ∅ marked = .ok (functions, converted) ∧
      p = ⟨functions, c.closures, converted⟩ := by
  unfold applyTo at h
  cases hmark : markCalls c.closureCalls.keys a with
  | error e =>
      rw [hmark] at h
      cases h
  | ok marked =>
      rw [hmark] at h
      change (applyDecisions c.decisions.entries ∅ marked >>= _) = _ at h
      cases happly : applyDecisions c.decisions.entries ∅ marked with
      | error e =>
          rw [happly] at h
          cases h
      | ok result =>
          rw [happly] at h
          exact ⟨marked, result.1, result.2, rfl, happly, (Except.ok.inj h).symm⟩

/-- A renamed classification turns the renamed arena into the renamed program. -/
theorem applyTo_rename (h : c.applyTo a = .ok p) :
    (c.rename r).applyTo (a.rename r) = .ok (p.rename r) := by
  obtain ⟨marked, functions, converted, hmark, happly, rfl⟩ := exists_of_applyTo h
  have hmark' : markCalls (c.rename r).closureCalls.keys (a.rename r) = .ok (marked.rename r) :=
    markCalls_rename r hmark
  have happly' : applyDecisions (c.rename r).decisions.entries ∅ (marked.rename r) =
      .ok (functions.rename r (Function.rename r), converted.rename r) :=
    applyDecisions_rename r happly
  rw [applyTo, hmark']
  change (applyDecisions (c.rename r).decisions.entries ∅ (marked.rename r) >>= _) = _
  rw [happly']
  rfl

end Classification

/-! ## Verification -/

/-- A violation with the names it mentions replaced. -/
def Violation.rename : Violation → Violation
  | .knownCaptures name free => .knownCaptures (r name) (free.map r)
  | .missingCapture name missing => .missingCapture (r name) (missing.map r)
  | .spuriousCapture name spurious => .spuriousCapture (r name) (spurious.map r)
  | .indirectMismatch id callee indirect => .indirectMismatch id (r callee) indirect
  | .functionSurvived name => .functionSurvived (r name)
  | .unknownTarget name => .unknownTarget (r name)

namespace Classification

/-- A closure is checked alike under other names. -/
theorem checkClosure_rename (captures : List Name) (d : Decision) (free reads : NameSet) :
    checkClosure (captures.map r) (d.rename r) (free.rename r) (reads.rename r) =
      (checkClosure captures d free reads).map (Violation.rename r) := by
  have hmissing : ((free.rename r).toList.filter fun n =>
        n ≠ (d.rename r).name ∧ n ∉ captures.map r) =
      (free.toList.filter fun n => n ≠ d.name ∧ n ∉ captures).map r := by
    rw [NameSet.toList_rename, List.filter_map]
    refine congrArg _ (List.filter_congr fun n _ => ?_)
    simp only [Function.comp_apply, Decision.rename, ne_eq, r.injective.eq_iff, mem_map_name]
  have hspurious : ((captures.map r).filter fun n =>
        n ∉ free.rename r ∨ n ∉ reads.rename r ∨ n ∈ (d.rename r).params) =
      (captures.filter fun n => n ∉ free ∨ n ∉ reads ∨ n ∈ d.params).map r := by
    rw [List.filter_map]
    refine congrArg _ (List.filter_congr fun n _ => ?_)
    simp only [Function.comp_apply, Decision.rename, NameSet.mem_rename, mem_map_name]
  unfold checkClosure
  simp only [hmissing, hspurious, List.map_eq_nil_iff, List.map_append]
  congr 1 <;> split <;> rfl

/-- A decision is checked alike under other names. -/
theorem judge_rename (c : Classification) (d : Decision) (body : Code) :
    (c.rename r).judge (d.rename r) (body.rename r) =
      (c.judge d body).map (Violation.rename r) := by
  have hfree : (body.rename r).bodyFreeNames (c.rename r).known (d.rename r).params =
      (body.bodyFreeNames c.known d.params).rename r := Code.bodyFreeNames_rename r ..
  have hcaptures : ((c.rename r).captures? (d.rename r).name).getD [] =
      ((c.captures? d.name).getD []).map r := by
    simp only [captures?, rename, Decision.rename, Table.get?_rename]
    cases c.closures.get? d.name <;> rfl
  have hstanding : (d.rename r).standing = d.standing := rfl
  unfold judge
  simp only [hfree, hcaptures, hstanding, NameSet.isEmpty_rename, Code.reads_rename,
    checkClosure_rename]
  cases d.standing with
  | known => dsimp only; split <;> rfl
  | closure => rfl

end Classification

/-- An instruction is checked alike under other names. -/
theorem Program.checkRecord_rename (p : Program) (known : NameSet) (id : RecordId) (rec : Record) :
    (p.rename r).checkRecord (known.rename r) id (rec.rename r false) =
      (p.checkRecord known id rec).map (Violation.rename r) := by
  have hrhs : (rec.rename r false).rhs = rec.rhs.rename r := rfl
  unfold checkRecord
  rw [hrhs]
  cases rec.rhs with
  | fn params body => rfl
  | branch cond yes no => rfl
  | op o =>
      cases o with
      | makeClosure captures target =>
          simp only [Rhs.rename, Operation.rename, rename, Table.contains_rename]
          split <;> rfl
      | app callee args indirect =>
          simp only [Rhs.rename, Operation.rename, NameSet.contains_rename]
          split <;> rfl
      | _ => rfl

namespace Applied

variable {r} {a a' : Arena} {code : Code} {c : Classification} {p : Program}

/-- A block of the program is checked alike under other names: what the verifier meets are
instructions, no sentinels. -/
theorem exists_checkBlock_rename (h : Applied a code c p) {blk : BlockId} (hr : a.Reaches blk) :
    ∃ vs, p.checkBlock c.known blk = .ok vs ∧
      (p.rename r).checkBlock (c.rename r).known blk = .ok (vs.map (Violation.rename r)) := by
  obtain ⟨l, hl, hitems⟩ := h.branchClosed.exists_branchList hr
  have hl' := p.arena.branchList_rename r (p.arena.numBlocks + 1) blk
  rw [hl] at hl'
  refine ⟨_, by rw [Program.checkBlock, hl]; rfl, ?_⟩
  rw [Program.checkBlock]
  show ((p.arena.rename r).branchList (p.arena.numBlocks + 1) blk >>= _) = _
  rw [hl']
  refine congrArg Except.ok ?_
  rw [List.flatMap_map, List.map_flatMap]
  refine List.flatMap_congr fun x hx => ?_
  obtain ⟨b, -, hi⟩ := hitems x hx
  have hs : p.arena.isSentinel x.1 = false := h.edited.orderly.isSentinel_of_mem_items hi
  simp only [Arena.changed, hs]
  exact p.checkRecord_rename r c.known x.1 x.2

/-- Decisions are checked alike under other names. -/
theorem checkDecisions_rename (h : Applied a code c p) (ha : a.Unfolds code)
    (ha' : a'.Unfolds (code.rename r)) :
    (c.rename r).checkDecisions a' =
      (c.checkDecisions a).map (List.map (Violation.rename r)) := by
  have hstep : ∀ d ∈ c.decisions.values, (c.rename r).checkDecision a' (d.rename r) =
      (c.checkDecision a d).map (List.map (Violation.rename r)) := by
    intro d hd
    obtain ⟨id, hid⟩ := Table.mem_values_iff.mp hd
    obtain ⟨m, hm, -, -, -, hbody⟩ := h.concerns.decision id d hid
    have hblock := Code.body_mem_blocks Arena.entry hm
    have hcode : a.code d.body = .ok m.body := by
      rw [hbody]
      exact ha.code_eq hblock
    have hcode' : a'.code (d.rename r).body = .ok (m.body.rename r) := by
      rw [Decision.rename, hbody]
      exact ha'.code_eq (Code.mem_blocks_rename r hblock)
    rw [Classification.checkDecision_eq hcode, Classification.checkDecision_eq hcode']
    exact congrArg Except.ok (c.judge_rename r d m.body)
  have hvalues : (c.rename r).decisions.values = c.decisions.values.map (Decision.rename r) :=
    Table.values_mapValues ..
  rw [Classification.checkDecisions, Classification.checkDecisions, hvalues, mapM_map_except hstep]
  cases c.decisions.values.mapM (c.checkDecision a) with
  | error e => rfl
  | ok checked => exact congrArg Except.ok List.map_flatten.symm

/-- The verifier reports the renamed violations, in an order that the names of functions decide. -/
theorem verify_rename (h : Applied a code c p) (ha : a.Unfolds code)
    (ha' : a'.Unfolds (code.rename r)) :
    ∃ vs vs', verify a c p = .ok vs ∧ verify a' (c.rename r) (p.rename r) = .ok vs' ∧
      vs'.Perm (vs.map (Violation.rename r)) := by
  obtain ⟨decisions, hdecisions⟩ := h.exists_checkDecisions
  have hdecisions' := h.checkDecisions_rename ha ha'
  rw [hdecisions] at hdecisions'
  -- what is reported about a block, as a function of the block
  choose! g hg hg' using fun blk (hr : a.Reaches blk) => h.exists_checkBlock_rename (r := r) hr
  have hreach : ∀ fn ∈ p.functions.values, a.Reaches fn.body := by
    intro fn hfn
    obtain ⟨f, hf⟩ := Table.mem_values_iff.mp hfn
    obtain ⟨m, hm, -, rfl⟩ := h.exists_literal hf
    exact h.reaches_body hm
  have hperm : (p.rename r).functions.values.Perm (p.functions.values.map (Function.rename r)) :=
    p.functions.values_rename_perm r _
  have hbodies := mapM_eq_ok_map fun fn hfn => hg fn.body (hreach fn hfn)
  have hbodies' : (p.rename r).functions.values.mapM
      (fun fn => (p.rename r).checkBlock (c.rename r).known fn.body) =
        .ok ((p.rename r).functions.values.map fun fn => (g fn.body).map (Violation.rename r)) := by
    refine mapM_eq_ok_map fun fn hfn => hg' fn.body ?_
    obtain ⟨fn₀, hfn₀, rfl⟩ := List.mem_map.mp (hperm.mem_iff.mp hfn)
    exact hreach fn₀ hfn₀
  have hverify : verify a c p = .ok (decisions ++ g Arena.entry ++
      (p.functions.values.map fun fn => g fn.body).flatten) := by
    rw [verify, hdecisions, hg _ .entry, hbodies]
    rfl
  have hverify' : verify a' (c.rename r) (p.rename r) =
      .ok (decisions.map (Violation.rename r) ++ (g Arena.entry).map (Violation.rename r) ++
        ((p.rename r).functions.values.map fun fn => (g fn.body).map (Violation.rename r)).flatten) := by
    rw [verify, hdecisions', hg' _ .entry, hbodies']
    rfl
  refine ⟨_, _, hverify, hverify', ?_⟩
  rw [List.map_append, List.map_append]
  refine List.Perm.append_left _ ?_
  have hflat := (hperm.map fun fn => (g fn.body).map (Violation.rename r)).flatten
  rw [List.map_map] at hflat
  rw [List.map_flatten, List.map_map]
  exact hflat

end Applied

/-- **Renaming.** Conversion depends on names up to equality only, whatever the scopes and also if
names are shared. Under an injective renaming a nested program is classified in the renamed way, with
the same records, standings and orders; the program that results is the renamed one; and the verifier
finds the renamed violations, in some order. -/
theorem convert_rename (r : Name ↪ Name) (t : Block) (optimize : Bool) :
    ∃ c p vs vs',
      (Arena.ofBlock t).classify optimize = .ok c ∧
      (Arena.ofBlock (t.rename r)).classify optimize = .ok (c.rename r) ∧
      (Arena.ofBlock t).convert optimize = .ok p ∧
      (Arena.ofBlock (t.rename r)).convert optimize = .ok (p.rename r) ∧
      verify (Arena.ofBlock t) c p = .ok vs ∧
      verify (Arena.ofBlock (t.rename r)) (c.rename r) (p.rename r) = .ok vs' ∧
      vs'.Perm (vs.map (Violation.rename r)) := by
  have h := Arena.ofBlock_unfolds t
  have h' := Arena.ofBlock_unfolds (t.rename r)
  rw [Block.number_rename] at h'
  have hclassify := h.classify_eq optimize
  have hclassify' := h'.classify_eq optimize
  rw [Code.classify_rename] at hclassify'
  obtain ⟨p, hp, happlied⟩ := h.shows.exists_applied h.orderly (Code.concerns_classify optimize _)
  have hp' := Classification.applyTo_rename r hp
  rw [← Arena.ofBlock_rename] at hp'
  obtain ⟨vs, vs', hvs, hvs', hperm⟩ := happlied.verify_rename h h'
  refine ⟨_, p, vs, vs', hclassify, hclassify', ?_, ?_, hvs, hvs', hperm⟩
  · rw [Arena.convert, hclassify]
    exact hp
  · rw [Arena.convert, hclassify']
    exact hp'

end ClosureConversion
