import ClosureConversion.Proofs.Arena.Mapping
import ClosureConversion.Proofs.Conversion.Flattening
import ClosureConversion.Proofs.Faults

/-!
# Capture lists that the verifier does not see

The rule on captures is checked on decisions only. Of a closure construction in the program, the verifier
looks at the function it names and not at the list it carries: with other lists the verdict is the same
(`verify_recapture`). So a clean verdict says nothing about these lists, unless there is nothing to say:
as soon as a function is decided and the decisions themselves pass, some program with a wrong list passes
too (`clean_imp_carriesCaptures_iff`).

What conversion writes is right all the same (`Applied.carriesCaptures`): where literals have different
names and the source constructs no closures, each construction of the converted program carries the
captures on record.
-/

namespace ClosureConversion

open Relation (ReflTransGen)

/-! ## Other capture lists -/

/-- A record with another capture list, if it constructs a closure. -/
def Record.recapture (f : RecordId → List Name → List Name) (id : RecordId) (r : Record) : Record :=
  match r.rhs with
  | .op (.makeClosure captures target) => { r with rhs := .op (.makeClosure (f id captures) target) }
  | _ => r

/-- A program with other capture lists in its closure constructions, and nothing else changed. -/
def Program.recapture (f : RecordId → List Name → List Name) (p : Program) : Program :=
  { p with arena := p.arena.mapRecords (Record.recapture f) }

section Recapture

variable {f : RecordId → List Name → List Name}

/-- A record either constructs a closure, or keeps everything. -/
theorem Record.recapture_cases (id : RecordId) (r : Record) :
    r.recapture f id = r ∨ ∃ captures target, r.rhs = .op (.makeClosure captures target) ∧
      r.recapture f id = { r with rhs := .op (.makeClosure (f id captures) target) } := by
  unfold recapture
  split
  next captures target h => exact .inr ⟨captures, target, h, rfl⟩
  next => exact .inl rfl

/-- Checking an instruction does not look at the captures of closure constructions. -/
theorem Program.checkRecord_recapture (p : Program) (known : NameSet) (id : RecordId) (r : Record) :
    (p.recapture f).checkRecord known id (r.recapture f id) = p.checkRecord known id r := by
  rcases r.recapture_cases (f := f) id with h | ⟨captures, target, hrhs, h⟩
  · rw [h]
    rfl
  · rw [h]
    unfold checkRecord
    rw [hrhs]
    rfl

/-- Checking a block does not look at the captures of closure constructions. -/
theorem Program.checkBlock_recapture (p : Program) (known : NameSet) (blk : BlockId) :
    (p.recapture f).checkBlock known blk = p.checkBlock known blk := by
  have hnext : ∀ id r, (Record.recapture f id r).next = r.next := by
    intro id r
    rcases r.recapture_cases (f := f) id with h | ⟨captures, target, -, h⟩ <;> rw [h]
  have hbranches : ∀ id r, (Record.recapture f id r).rhs.branches? = r.rhs.branches? := by
    intro id r
    rcases r.recapture_cases (f := f) id with h | ⟨captures, target, hrhs, h⟩
    · rw [h]
    · rw [h, hrhs]
      rfl
  have hlist := Arena.branchList_mapRecords (a := p.arena) hnext hbranches
    (p.arena.numBlocks + 1) blk
  unfold checkBlock
  rw [show (p.recapture f).arena = p.arena.mapRecords (Record.recapture f) from rfl,
    Arena.numBlocks_mapRecords, hlist]
  cases p.arena.branchList (p.arena.numBlocks + 1) blk with
  | error e => rfl
  | ok reached =>
      refine congrArg Except.ok ?_
      rw [List.flatMap_map]
      exact List.flatMap_congr fun x _ => p.checkRecord_recapture known x.1 x.2

/-- The verdict is the same whatever the capture lists of the program are. -/
theorem verify_recapture (source : Arena) (c : Classification) (p : Program) :
    verify source c (p.recapture f) = verify source c p := by
  have hblock : (p.recapture f).checkBlock c.known = p.checkBlock c.known :=
    funext fun blk => p.checkBlock_recapture c.known blk
  unfold verify
  rw [hblock]
  rfl

end Recapture

/-! ## Clean verdicts -/

/-- A traversal collects nothing exactly if each step succeeds with nothing. -/
theorem mapM_flatten_eq_nil_iff {α β ε : Type} {f : α → Except ε (List β)} {l : List α} :
    (l.mapM f).map List.flatten = .ok [] ↔ ∀ x ∈ l, f x = .ok [] := by
  induction l with
  | nil => exact ⟨fun _ x hx => absurd hx List.not_mem_nil, fun _ => rfl⟩
  | cons x l ih =>
      rw [List.mapM_cons, List.forall_mem_cons, ← ih]
      cases f x with
      | error e => exact iff_of_false (by rintro ⟨⟩) (by rintro ⟨⟨⟩, -⟩)
      | ok y =>
          cases l.mapM f with
          | error e => exact iff_of_false (by rintro ⟨⟩) (by rintro ⟨-, ⟨⟩⟩)
          | ok ys =>
              show Except.ok (y ++ ys.flatten) = .ok [] ↔ _ ∧ Except.ok ys.flatten = .ok []
              simp only [Except.ok.injEq, List.append_eq_nil_iff]

/-- A verdict is clean exactly if the decisions, the entry and each function pass by themselves. -/
theorem verify_eq_nil_iff {source : Arena} {c : Classification} {p : Program} :
    verify source c p = .ok [] ↔ c.checkDecisions source = .ok [] ∧
      p.checkBlock c.known Arena.entry = .ok [] ∧
      ∀ fn ∈ p.functions.values, p.checkBlock c.known fn.body = .ok [] := by
  rw [← mapM_flatten_eq_nil_iff, verify]
  cases c.checkDecisions source with
  | error e => exact iff_of_false (by rintro ⟨⟩) (by rintro ⟨⟨⟩, -⟩)
  | ok decisions =>
      cases p.checkBlock c.known Arena.entry with
      | error e => exact iff_of_false (by rintro ⟨⟩) (by rintro ⟨-, ⟨⟩, -⟩)
      | ok entry =>
          cases p.functions.values.mapM fun fn => p.checkBlock c.known fn.body with
          | error e => exact iff_of_false (by rintro ⟨⟩) (by rintro ⟨-, -, ⟨⟩⟩)
          | ok bodies =>
              show Except.ok (decisions ++ entry ++ bodies.flatten) = .ok [] ↔
                _ ∧ _ ∧ Except.ok bodies.flatten = .ok []
              simp only [Except.ok.injEq, List.append_eq_nil_iff, and_assoc]

/-! ## What a clean verdict would have to say -/

namespace Program

/-- The blocks that the entry and the bodies of functions lead to through conditionals. -/
def Covers (p : Program) (blk : BlockId) : Prop :=
  ∃ root, (root = Arena.entry ∨ ∃ f fn, p.functions.get? f = some fn ∧ fn.body = root) ∧
    ReflTransGen p.arena.IfEdge root blk

/-- Every closure construction for a decided function, in a block that the program covers, carries
exactly the names that are captured for that function. -/
def CarriesCaptures (p : Program) (c : Classification) : Prop :=
  ∀ blk, p.Covers blk → ∀ i ∈ p.arena.items blk, ∀ captures target,
    i.rhs = .op (.makeClosure captures target) → (∃ d ∈ c.decisions.values, d.name = target) →
    ∀ n, n ∈ captures ↔ n ∈ (c.captures? target).getD []

/-- A program with one instruction, the construction of a closure. -/
def construction (captures : List Name) (target : Name) : Program where
  functions := (∅ : Table Name Function).insert target ⟨[], Arena.entry⟩
  closures := ∅
  arena := Arena.empty.push Arena.entry "" (.op (.makeClosure captures target))

variable {captures : List Name} {target : Name} {c : Classification}

/-- A program that only makes a closure of a function that it has passes. -/
theorem checkBlock_construction (known : NameSet) :
    (construction captures target).checkBlock known Arena.entry = .ok [] := by
  have hlist : (construction captures target).arena.branchList
      ((construction captures target).arena.numBlocks + 1) Arena.entry =
      .ok [(2, ⟨"", .op (.makeClosure captures target), some 0, some 1⟩)] := rfl
  have hin : (construction captures target).functions.contains target = true :=
    (Table.contains_insert ..).mpr (.inl rfl)
  rw [checkBlock, hlist]
  refine congrArg Except.ok ?_
  simp only [List.flatMap_cons, List.flatMap_nil, checkRecord, hin, if_true, List.append_nil]

/-- The verifier finds nothing wrong with the construction. -/
theorem verify_construction {source : Arena} (h : c.checkDecisions source = .ok []) :
    verify source c (construction captures target) = .ok [] := by
  refine verify_eq_nil_iff.mpr ⟨h, checkBlock_construction c.known, fun fn hfn => ?_⟩
  obtain rfl : fn = ⟨[], Arena.entry⟩ := List.mem_singleton.mp hfn
  exact checkBlock_construction c.known

/-- The one construction of a program carries the captures, if its function is decided. -/
theorem CarriesCaptures.of_construction (h : (construction captures target).CarriesCaptures c)
    (hd : ∃ d ∈ c.decisions.values, d.name = target) (n : Name) :
    n ∈ captures ↔ n ∈ (c.captures? target).getD [] := by
  refine h Arena.entry ⟨Arena.entry, .inl rfl, .refl⟩ ⟨2, "", _⟩ ?_ captures target rfl hd n
  exact List.mem_singleton_self _

end Program

/-- Every list of names differs from some other. -/
theorem exists_other_names (l : List Name) : ∃ l' : List Name, ¬∀ n, n ∈ l' ↔ n ∈ l := by
  cases l with
  | nil => exact ⟨[""], fun h => List.not_mem_nil ((h "").mp List.mem_cons_self)⟩
  | cons n l => exact ⟨[], fun h => List.not_mem_nil ((h n).mpr List.mem_cons_self)⟩

/-- Clean verdicts vouch for capture lists exactly if no function is decided at all, or the decisions
themselves break a rule. -/
theorem clean_imp_carriesCaptures_iff {source : Arena} {c : Classification} :
    (∀ p, verify source c p = .ok [] → p.CarriesCaptures c) ↔
      c.decisions.values = [] ∨ c.checkDecisions source ≠ .ok [] := by
  constructor
  · intro h
    by_contra hnot
    obtain ⟨hsome, hclean⟩ := not_or.mp hnot
    obtain ⟨d, hd⟩ := List.exists_mem_of_ne_nil _ hsome
    obtain ⟨captures, hother⟩ := exists_other_names ((c.captures? d.name).getD [])
    have hverify : verify source c (.construction captures d.name) = .ok [] :=
      Program.verify_construction (not_ne_iff.mp hclean)
    exact hother ((h _ hverify).of_construction ⟨d, hd, rfl⟩)
  · rintro (hnone | hbad) p hp
    · intro blk _ i _ captures target _ hd
      obtain ⟨d, hd, -⟩ := hd
      rw [hnone] at hd
      exact absurd hd List.not_mem_nil
    · exact absurd (verify_eq_nil_iff.mp hp).1 hbad

/-! ## What conversion writes -/

/-- A flat item of code is an operation of the block that the code stands for. -/
theorem Code.mem_operations_of_mem_heads {c : Code} {id : RecordId} {ident : Name} {o : Operation}
    (h : ⟨id, ident, .op o⟩ ∈ c.heads) : o ∈ c.erase.operations := by
  induction c with
  | done => exact absurd h List.not_mem_nil
  | op id' ident' o' rest ih =>
      rcases List.mem_cons.mp h with he | h
      · obtain ⟨-, -, ho⟩ := Item.mk.inj he
        exact Rhs.op.inj ho ▸ List.mem_cons_self
      · exact List.mem_cons_of_mem _ (ih h)
  | fn id' ident' params blk body rest _ ih =>
      rcases List.mem_cons.mp h with he | h
      · cases he
      · exact List.mem_append_right _ (ih h)
  | branch id' ident' cond yesBlk noBlk yes no rest _ _ ih =>
      rcases List.mem_cons.mp h with he | h
      · cases he
      · exact List.mem_append_right _ (ih h)

/-- A closure construction that is left after conversion was there before, or carries out a
decision. -/
theorem Classification.makeClosure_of_convertItem {c : Classification} {i j : Item}
    {captures : List Name} {target : Name} (h : c.convertItem i = some j)
    (hj : j.rhs = .op (.makeClosure captures target)) :
    i.rhs = .op (.makeClosure captures target) ∨
      ∃ d, c.decisions.get? i.id = some d ∧ d.name = target ∧ d.action = .makeClosure captures := by
  rcases convertItem_cases h with rfl | ⟨-, callee, args, rfl⟩ | ⟨d, captures', hd, hact, hmade⟩
  · exact .inl hj
  · cases hj
  · obtain ⟨rfl, rfl⟩ := Operation.makeClosure.inj (Rhs.op.inj (hmade.symm.trans hj))
    exact .inr ⟨d, hd, rfl, hact⟩

namespace Applied

variable {a : Arena} {code : Code} {c : Classification} {p : Program}

/-- The blocks that the program covers are blocks that the entry led to. -/
theorem reaches_of_covers (h : Applied a code c p) {blk : BlockId} (hb : p.Covers blk) :
    a.Reaches blk := by
  obtain ⟨root, hroot, hpath⟩ := hb
  have hstart : a.Reaches root := by
    rcases hroot with rfl | ⟨f, fn, hf, rfl⟩
    · exact .entry
    · obtain ⟨m, hm, -, rfl⟩ := h.exists_literal hf
      exact h.reaches_body hm
  induction hpath with
  | refl => exact hstart
  | tail _ he ih => exact h.branchClosed.edge ih he

/-- If all literals are decided and the source constructs no closures, each construction carries the
captures on record. -/
theorem carriesCaptures (h : Applied a code c p) (hdec : ∀ m ∈ code.literals, c.Decided m)
    (hsource : ∀ captures target, .makeClosure captures target ∉ code.erase.operations) :
    p.CarriesCaptures c := by
  intro blk hb j hj captures target hrhs _ n
  rw [h.edited.items] at hj
  obtain ⟨i, hi, hconv⟩ := List.mem_filterMap.mp hj
  rcases Classification.makeClosure_of_convertItem hconv hrhs with hop | ⟨d, hd, rfl, hact⟩
  · obtain ⟨inner, hinner⟩ := h.shows.reaches_iff.mp (h.reaches_of_covers hb)
    rw [(h.shows _ hinner).2] at hi
    have hitem : (⟨i.id, i.ident, .op (.makeClosure captures target)⟩ : Item) ∈ inner.heads := by
      rwa [← hop]
    have hin := Code.mem_operations_of_mem_heads hitem
    exact absurd (Code.operations_subset_of_mem_blocks _ hinner hin) (hsource captures target)
  · obtain ⟨m, hm, hid, hname, -, -⟩ := h.concerns.decision _ d hd
    obtain ⟨d', hd', -, hcap⟩ := hdec m hm
    obtain rfl : d = d' := Option.some.inj (hd.symm.trans (hid ▸ hd'))
    rw [Classification.captures?, hname, hcap captures hact, Option.getD_some]

end Applied

/-- **Capture lists.** For the decisions on a source, the verdict does not depend on the lists that
closure constructions carry. So clean verdicts vouch for these lists exactly if no function is decided
at all, or the decisions themselves break a rule. The program that conversion makes carries the right
lists, if literals have different names and the source constructs no closures. -/
theorem verify_vouches_iff (t : Block) (optimize : Bool) :
    ∃ c, (Arena.ofBlock t).classify optimize = .ok c ∧
      (∀ (p : Program) (f : RecordId → List Name → List Name),
        verify (Arena.ofBlock t) c (p.recapture f) = verify (Arena.ofBlock t) c p) ∧
      ((∀ p, verify (Arena.ofBlock t) c p = .ok [] → p.CarriesCaptures c) ↔
        c.decisions.values = [] ∨ c.checkDecisions (Arena.ofBlock t) ≠ .ok []) ∧
      (t.literalNames.Nodup →
        (∀ captures target, .makeClosure captures target ∉ t.operations) →
        ∃ p, c.applyTo (Arena.ofBlock t) = .ok p ∧ p.CarriesCaptures c) := by
  have hunfolds := Arena.ofBlock_unfolds t
  refine ⟨_, hunfolds.classify_eq optimize, fun p f => verify_recapture _ _ p,
    clean_imp_carriesCaptures_iff, fun hn hsource => ?_⟩
  have hperm := (t.number 1 2).literalNames_perm
  rw [t.erase_number 1 2] at hperm
  have hsep : Separate (t.number 1 2).literals :=
    ⟨hperm.nodup_iff.mp hn, t.nodup_literal_ids 1 2⟩
  obtain ⟨p, hp, happlied⟩ := hunfolds.shows.exists_applied hunfolds.orderly
    ((t.number 1 2).concerns_classify optimize)
  refine ⟨p, hp, happlied.carriesCaptures (Code.decided_classify optimize hsep) ?_⟩
  rw [t.erase_number 1 2]
  exact hsource

/-- A closure over `x`, with a name beside it that it does not read. -/
def Block.addition : Block :=
  .op "x" (.int 1) <| .op "q" (.int 2) <|
  .fn "g" ["y"] (.op "r" (.binary .add "x" "y") .done) <|
  .op "u" (.tuple ["g"]) .done

/-- The sample of an addition makes no closures. -/
theorem Block.addition_no_makeClosure (captures : List Name) (target : Name) :
    .makeClosure captures target ∉ Block.addition.operations := by
  simp [addition, operations]

/-- The sample makes no closure before it is converted, so the converted one carries its captures. -/
theorem verify_vouches_iff_addition :
    Block.addition.literalNames.Nodup ∧
      (∀ captures target, .makeClosure captures target ∉ Block.addition.operations) ∧
      ∃ c p, (Arena.ofBlock Block.addition).classify true = .ok c ∧
        c.applyTo (Arena.ofBlock Block.addition) = .ok p ∧ p.CarriesCaptures c := by
  obtain ⟨c, hc, -, -, hconverted⟩ := verify_vouches_iff Block.addition true
  obtain ⟨p, hp, hcarries⟩ := hconverted (by decide) Block.addition_no_makeClosure
  exact ⟨by decide, Block.addition_no_makeClosure, c, p, hc, hp, hcarries⟩

/-- The converted program with one more name in its only capture list. -/
def Program.withSpurious (p : Program) : Program :=
  { p with arena := p.arena.setRhs 7 (.op (.makeClosure ["x", "q"] "g")) }

/-- The verifier overlooks a name that is captured without being read. -/
theorem verify_overlooks_spurious :
    ∃ c p, (Arena.ofBlock Block.addition).classify true = .ok c ∧
      c.applyTo (Arena.ofBlock Block.addition) = .ok p ∧
      verify (Arena.ofBlock Block.addition) c p.withSpurious = .ok [] ∧
      ¬p.withSpurious.CarriesCaptures c := by
  have hunfolds := Arena.ofBlock_unfolds Block.addition
  obtain ⟨p, hp, -⟩ := hunfolds.shows.exists_applied hunfolds.orderly
    ((Block.addition.number 1 2).concerns_classify true)
  have hclassify := hunfolds.classify_eq true
  have hcomputed : (((Block.addition.number 1 2).classify true).val.applyTo
      (Arena.ofBlock Block.addition)).map (fun p =>
        (verify (Arena.ofBlock Block.addition) ((Block.addition.number 1 2).classify true).val
          p.withSpurious,
        decide (⟨7, "g", .op (.makeClosure ["x", "q"] "g")⟩ ∈
          p.withSpurious.arena.items Arena.entry))) = .ok (.ok [], true) := by
    decide +kernel
  have hcaptures : ((Block.addition.number 1 2).classify true).val.captures? "g" = some ["x"] := by
    decide +kernel
  have hdecided : ∃ d ∈ ((Block.addition.number 1 2).classify true).val.decisions.values,
      d.name = "g" := by
    decide +kernel
  rw [hp] at hcomputed
  obtain ⟨hverify, hitem⟩ := Prod.mk.inj (Except.ok.inj hcomputed)
  refine ⟨_, p, hclassify, hp, hverify, fun h => ?_⟩
  have hq := h Arena.entry ⟨Arena.entry, .inl rfl, .refl⟩ _ (of_decide_eq_true hitem) _ _ rfl hdecided
    "q"
  rw [hcaptures] at hq
  exact absurd (hq.mp (by decide)) (by decide)

end ClosureConversion
