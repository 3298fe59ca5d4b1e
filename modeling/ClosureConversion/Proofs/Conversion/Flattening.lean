import ClosureConversion.Proofs.Arena.Scripts
import ClosureConversion.Proofs.Conversion.Whole
import ClosureConversion.Proofs.Exploration.Renumbering

/-!
# Conversion as flattening

In an arena in the shape of a tree, whose literals have different names, conversion is a function on
nested programs. `Code.erased` is what becomes of a block: decided literals go or become closure
constructions, recorded calls become indirect, and nothing else changes. `Code.flattened` is the whole
program: the entry, and one function for each literal at any depth.

* The converted arena unfolds to the converted code, which forgets its numbers to `Code.erased`
  (`Code.erase_converted`), because every literal has its decision.
* So the nested form of the program is `Code.flattened` (`Applied.toTree_eq`).
* It does not depend on numbers (`Code.Same.flattened_eq`): arenas with the same nested entry convert to
  the same nested program.
-/

namespace ClosureConversion

/-! ## Flattened programs -/

/-- Whether the literal of a record was decided to go. -/
def Classification.removes (c : Classification) (id : RecordId) : Prop :=
  (c.decisions.get? id).map (·.action) = some .remove

instance (c : Classification) (id : RecordId) : Decidable (c.removes id) :=
  inferInstanceAs (Decidable ((c.decisions.get? id).map (·.action) = some .remove))

namespace Code

/-- The nested block that is left of code: literals go if that was decided and become closure
constructions otherwise, and the calls on record become indirect. -/
def erased (c : Classification) : Code → Block
  | .done => .done
  | .op id ident o rest =>
    .op ident (if c.closureCalls.contains id then o.indirect else o) (rest.erased c)
  | .fn id ident _ _ _ rest =>
    if c.removes id then rest.erased c
    else .op ident (.makeClosure ((c.captures? ident).getD []) ident) (rest.erased c)
  | .branch _ ident cond _ _ yes no rest =>
    .branch ident cond (yes.erased c) (no.erased c) (rest.erased c)

end Code

/-- The function that a literal becomes. -/
def Member.function (c : Classification) (m : Member) : Name × FunctionTree :=
  (m.ident, ⟨m.params, c.captures? m.ident, m.body.erased c⟩)

/-- The nested program that code becomes: one function for each literal, and the entry. -/
def Code.flattened (c : Classification) (code : Code) : ProgramTree :=
  ⟨((∅ : Table Name FunctionTree).insertAll (code.literals.map (·.function c))).entries,
    code.erased c⟩

/-- There is one function for each literal. -/
theorem Code.functions_perm {c : Classification} {code : Code}
    (hn : (code.literals.map (·.ident)).Nodup) :
    (code.flattened c).functions.Perm (code.literals.map (·.function c)) := by
  have hkeys : ((code.literals.map (·.function c)).map (·.1)).Nodup := by
    rw [List.map_map]
    exact hn
  refine (List.perm_ext_iff_of_nodup ?_ hkeys.of_map).mpr fun e => Table.mem_entries_insertAll hkeys
  refine (Table.pairwise_key_ne _).imp fun hne he => hne (congrArg Prod.fst he)

/-! ## Converted code without its numbers -/

namespace Code

/-- Where all literals are decided, converted code forgets its numbers to what is left. -/
theorem erase_converted {c : Classification} {d : Code} (h : ∀ m ∈ d.literals, c.Decided m) :
    (d.converted c).erase = d.erased c := by
  induction d with
  | done => rfl
  | op id ident o rest ih =>
      simp only [converted, erase, erased, ih h]
  | fn id ident params blk body rest _ ih =>
      have hperm := literals_fn_perm id ident params blk body rest
      have hrest := ih fun m hm =>
        h m (hperm.mem_iff.mpr (List.mem_cons_of_mem _ (List.mem_append_right _ hm)))
      obtain ⟨dec, hdec, ⟨hname, -, -⟩, hcap⟩ := h _ (hperm.mem_iff.mpr List.mem_cons_self)
      dsimp only at hdec hname hcap
      cases hact : dec.action with
      | remove =>
          have hremoves : c.removes id := by
            rw [Classification.removes, hdec, Option.map_some, hact]
          simp only [converted, hdec, hact, erased, if_pos hremoves, hrest]
      | makeClosure captures =>
          have hkeeps : ¬c.removes id := by
            rw [Classification.removes, hdec, Option.map_some, hact]
            simp
          have hcaptures : (c.captures? ident).getD [] = captures := by
            rw [Classification.captures?, hcap captures hact, Option.getD_some]
          simp only [converted, hdec, hact, erase, erased, if_neg hkeeps, hcaptures, hname, hrest]
  | branch id ident cond yesBlk noBlk yes no rest ihy ihn ih =>
      have hperm := literals_branch_perm id ident cond yesBlk noBlk yes no rest
      have hyes := ihy fun m hm => h m (hperm.mem_iff.mpr (List.mem_append_left _ hm))
      have hno := ihn fun m hm =>
        h m (hperm.mem_iff.mpr (List.mem_append_right _ (List.mem_append_left _ hm)))
      have hrest := ih fun m hm =>
        h m (hperm.mem_iff.mpr (List.mem_append_right _ (List.mem_append_right _ hm)))
      simp only [converted, erase, erased, hyes, hno, hrest]

end Code

/-! ## The nested form of the program -/

/-- If every element succeeds, so does the whole list. -/
theorem mapM_eq_ok_map {α β ε : Type} {f : α → Except ε β} {g : α → β} {l : List α}
    (h : ∀ x ∈ l, f x = .ok (g x)) : l.mapM f = .ok (l.map g) := by
  induction l with
  | nil => rfl
  | cons x l ih =>
      rw [List.mapM_cons, h x List.mem_cons_self, ih fun y hy => h y (List.mem_cons_of_mem _ hy)]
      rfl

namespace Program

variable {p : Program}

/-- The code of a block of a program; nothing if it does not unfold. -/
def codeAt (p : Program) (blk : BlockId) : Code := (p.arena.code blk).toOption.getD .done

/-- Where a block unfolds, its code is the one unfolded. -/
theorem codeAt_eq {blk : BlockId} {d : Code} (h : p.arena.code blk = .ok d) : p.codeAt blk = d := by
  rw [codeAt, h]
  rfl

/-- If the entry and all functions unfold, so does the program, function by function. -/
theorem toTree_eq_ok {entry : Code} (hentry : p.arena.code Arena.entry = .ok entry)
    (hfns : ∀ e ∈ p.functions.entries, p.arena.code e.2.body = .ok (p.codeAt e.2.body)) :
    p.toTree = .ok ⟨p.functions.entries.map fun e =>
      (e.1, ⟨e.2.params, p.closures.get? e.1, (p.codeAt e.2.body).erase⟩), entry.erase⟩ := by
  have hbodies : p.bodies =
      .ok (p.functions.entries.map fun e => (e.1, e.2, p.codeAt e.2.body)) := by
    refine mapM_eq_ok_map fun e he => ?_
    simp only [hfns e he]
    rfl
  rw [toTree, hbodies, hentry]
  show Except.ok _ = Except.ok _
  rw [List.map_map]
  rfl

end Program

namespace Applied

variable {a : Arena} {code : Code} {c : Classification} {p : Program}

/-- The body of a literal, as the program has it. -/
theorem codeAt_eq (h : Applied a code c p) (hn : (code.nested.map (·.1)).Nodup) {m : Member}
    (hm : m ∈ code.literals) : p.codeAt m.blk = m.body.converted c :=
  Program.codeAt_eq (h.code_eq hn (Code.body_mem_blocks Arena.entry hm))

/-- The function table has exactly the literals. -/
theorem mem_functions_iff (h : Applied a code c p) (hsep : Separate code.literals)
    (hdec : ∀ m ∈ code.literals, c.Decided m) {f : Name} {fn : Function} :
    (f, fn) ∈ p.functions.entries ↔
      ∃ m ∈ code.literals, m.ident = f ∧ fn = ⟨m.params, m.blk⟩ := by
  rw [Table.mem_entries_iff]
  refine ⟨h.exists_literal, ?_⟩
  rintro ⟨m, hm, rfl, rfl⟩
  obtain ⟨d, hd, ⟨hname, -, -⟩, -⟩ := hdec m hm
  have hin : p.functions.contains m.ident = true := by
    rw [h.functions, Classification.contains_collect]
    exact .inr ⟨(m.id, d), Table.mem_entries_iff.mpr hd, hname⟩
  obtain ⟨fn, hfn⟩ := Table.contains_iff.mp hin
  obtain ⟨m', hm', hident, rfl⟩ := h.exists_literal hfn
  rwa [List.inj_on_of_nodup_map hsep.1 hm' hm hident] at hfn

/-- A function of the program in nested form is what its literal becomes. -/
theorem function_eq (h : Applied a code c p) (hn : (code.nested.map (·.1)).Nodup)
    (hdec : ∀ m ∈ code.literals, c.Decided m) {m : Member} (hm : m ∈ code.literals) :
    (m.ident, (⟨m.params, p.closures.get? m.ident, (p.codeAt m.blk).erase⟩ : FunctionTree)) =
      m.function c := by
  have hbody : (m.body.converted c).erase = m.body.erased c := by
    refine Code.erase_converted fun m' hm' => hdec m' ?_
    obtain ⟨s, hs, rfl⟩ := List.mem_map.mp hm'
    exact List.mem_map_of_mem
      (Code.sites_subset_of_mem_blocks (Code.body_mem_blocks Arena.entry hm) hs)
  rw [h.codeAt_eq hn hm, hbody, h.closures]
  rfl

/-- The nested form of the program is the flattened code. -/
theorem toTree_eq (h : Applied a code c p) (hn : (code.nested.map (·.1)).Nodup)
    (hsep : Separate code.literals) (hdec : ∀ m ∈ code.literals, c.Decided m) :
    p.toTree = .ok (code.flattened c) := by
  have hfns : ∀ e ∈ p.functions.entries, p.arena.code e.2.body = .ok (p.codeAt e.2.body) := by
    intro e he
    obtain ⟨m, hm, -, hfn⟩ := (h.mem_functions_iff hsep hdec).mp he
    rw [hfn, h.codeAt_eq hn hm]
    exact h.code_eq hn (Code.body_mem_blocks Arena.entry hm)
  have hkeys : ((code.literals.map (·.function c)).map (·.1)).Nodup := by
    rw [List.map_map]
    exact hsep.1
  rw [Program.toTree_eq_ok (h.code_eq hn List.mem_cons_self) hfns, Code.flattened,
    Code.erase_converted hdec]
  refine congrArg (fun fns => Except.ok (ProgramTree.mk fns _)) ?_
  -- both lists are in the order of names, so it is enough that they have the same functions
  refine Table.eq_entries_of_mem_iff (List.pairwise_map.mpr p.functions.sorted) fun e => ?_
  rw [Table.mem_entries_insertAll hkeys, List.mem_map, List.mem_map]
  constructor
  · rintro ⟨⟨f, fn⟩, he, rfl⟩
    obtain ⟨m, hm, rfl, rfl⟩ := (h.mem_functions_iff hsep hdec).mp he
    exact ⟨m, hm, (h.function_eq hn hdec hm).symm⟩
  · rintro ⟨m, hm, rfl⟩
    refine ⟨(m.ident, ⟨m.params, m.blk⟩), ?_, h.function_eq hn hdec hm⟩
    exact (h.mem_functions_iff hsep hdec).mpr ⟨m, hm, rfl, rfl⟩

end Applied

/-! ## Numbers -/

/-- States in agreement remove the same literals. -/
theorem Classification.Agree.removes_iff {R : RecordId → RecordId → Prop} {c c' : Classification}
    (h : c.Agree R c') {id id' : RecordId} (hid : R id id') : c.removes id ↔ c'.removes id' := by
  have hact := congrArg (Option.map fun f : Name × List Name × Standing × Action => f.2.2.2)
    (h.decisions hid)
  rw [Option.map_map, Option.map_map] at hact
  exact Eq.congr_left hact

namespace Code.Same

variable {R : RecordId → RecordId → Prop} {d d' : Code} {c c' : Classification}

/-- Codes that differ in their numbers only are erased alike. -/
theorem erased_eq (h : d.Same R d') (ha : c.Agree R c') : d.erased c = d'.erased c' := by
  induction h with
  | done => rfl
  | op ident o hid _ ih => simp only [erased, ih, ha.calls hid]
  | fn ident params hid _ _ _ ih =>
      simp only [erased, ha.removes_iff hid, ih, Classification.captures?, ha.closures]
  | branch ident cond _ _ _ _ ihy ihn ih => simp only [erased, ihy, ihn, ih]

/-- The literals at the same places correspond. -/
theorem literals (h : d.Same R d') : List.Forall₂ (Member.Same R) d.literals d'.literals := by
  have hboth : List.Forall₂ (Member.Same R) d.members d'.members ∧
      List.Forall₂ (Member.Same R) (d.innerSites.map (·.member))
        (d'.innerSites.map (·.member)) := by
    induction h with
    | done => exact ⟨.nil, .nil⟩
    | op ident o _ _ ih => exact ih
    | fn ident params hid hb hrest ihb ih =>
        rw [members_fn, members_fn, innerSites, innerSites, List.map_append, List.map_append,
          List.map_append, List.map_append]
        exact ⟨.cons ⟨hid, rfl, rfl, hb, hrest⟩ ih.1,
          List.rel_append (List.rel_append ihb.1 ihb.2) ih.2⟩
    | branch ident cond _ _ _ _ ihy ihn ih =>
        rw [innerSites, innerSites]
        simp only [List.map_append]
        exact ⟨ih.1, List.rel_append (List.rel_append (List.rel_append ihy.1 ihy.2)
          (List.rel_append ihn.1 ihn.2)) ih.2⟩
  rw [literals_eq, literals_eq]
  exact List.rel_append hboth.1 hboth.2

/-- Flattening does not look at numbers. -/
theorem flattened_eq (h : d.Same R d') (ha : c.Agree R c') : d.flattened c = d'.flattened c' := by
  have hfns : d.literals.map (·.function c) = d'.literals.map (·.function c') := by
    have hlit := h.literals
    generalize d.literals = ms, d'.literals = ms' at hlit
    induction hlit with
    | nil => rfl
    | cons hm _ ih =>
        rw [List.map_cons, List.map_cons, ih, Member.function, Member.function, hm.ident, hm.params,
          hm.body.erased_eq ha, Classification.captures?, Classification.captures?, ha.closures]
  rw [flattened, flattened, hfns, h.erased_eq ha]

end Code.Same

/-! ## Arenas that stand for a nested program -/

namespace Code

/-- The records of literals are among the records of the code. -/
theorem literal_ids_subperm (d : Code) : (d.literals.map (·.id)).Subperm d.ids := by
  induction d with
  | done => exact List.Subperm.refl _
  | op id ident o rest ih => exact ih.trans (List.sublist_cons_self _ _).subperm
  | fn id ident params blk body rest ihb ih =>
      refine ((literals_fn_perm id ident params blk body rest).map _).subperm.trans ?_
      rw [List.map_cons, List.map_append]
      exact (List.subperm_cons id).mpr (ihb.append ih)
  | branch id ident cond yesBlk noBlk yes no rest ihy ihn ih =>
      refine ((literals_branch_perm id ident cond yesBlk noBlk yes no rest).map _).subperm.trans ?_
      rw [List.map_append, List.map_append]
      exact (ihy.append (ihn.append ih)).trans (List.sublist_cons_self id _).subperm

end Code

namespace Arena

variable {a : Arena} {code : Code}

/-- No two function literals that the entry leads to have the same name. -/
def DistinctLiterals (a : Arena) : Prop :=
  ∀ id id' f params params' body body', a.HasLiteral id f params body →
    a.HasLiteral id' f params' body' → id = id'

/-- An arena that comes about by edits, has the shape of a tree, and whose literals have different
names. -/
structure IsNested (a : Arena) : Prop where
  built : a.Built
  tree : a.TreeShaped
  distinct : a.DistinctLiterals

/-- The literals of an arena are distinct if those of its code are. -/
theorem Shows.distinctLiterals (h : a.Shows entry code) (hn : code.erase.literalNames.Nodup) :
    a.DistinctLiterals := by
  intro id id' f params params' body body' hl hl'
  obtain ⟨m, hm, hitem⟩ := h.hasLiteral_iff.mp hl
  obtain ⟨m', hm', hitem'⟩ := h.hasLiteral_iff.mp hl'
  have hident : m.ident = m'.ident :=
    (congrArg Item.ident hitem).trans (congrArg Item.ident hitem').symm
  have heq := List.inj_on_of_nodup_map (code.literalNames_perm.nodup_iff.mp hn) hm hm' hident
  exact (congrArg Item.id hitem).symm.trans
    ((congrArg Member.id heq).trans (congrArg Item.id hitem'))

/-- No two literals share their name or their record. -/
theorem Unfolds.separate (h : a.Unfolds code) (hd : a.DistinctLiterals) :
    Separate code.literals := by
  have hids : (code.literals.map (·.id)).Nodup := by
    obtain ⟨l, hperm, hsub⟩ := code.literal_ids_subperm
    exact hperm.nodup_iff.mp (hsub.nodup h.nodup_ids)
  refine ⟨List.Nodup.map_on (fun m hm m' hm' hident => ?_) hids.of_map, hids⟩
  have hl := h.shows.hasLiteral_iff.mpr ⟨m, hm, rfl⟩
  have hl' := h.shows.hasLiteral_iff.mpr ⟨m', hm', rfl⟩
  exact List.inj_on_of_nodup_map hids hm hm' (hd _ _ _ _ _ _ _ hl (hident ▸ hl'))

/-- Such an arena unfolds, and converts to the flattened code. -/
theorem IsNested.exists_program (h : a.IsNested) (optimize : Bool) :
    ∃ code p, a.Unfolds code ∧ Separate code.literals ∧
      (code.classify optimize).val.applyTo a = .ok p ∧
      p.toTree = .ok (code.flattened (code.classify optimize).val) := by
  obtain ⟨code, hunfolds⟩ := h.tree.exists_unfolds h.built.orderly
  have hsep := hunfolds.separate h.distinct
  obtain ⟨p, hp, happlied⟩ :=
    hunfolds.shows.exists_applied hunfolds.orderly (code.concerns_classify optimize)
  refine ⟨code, p, hunfolds, hsep, hp, ?_⟩
  exact happlied.toTree_eq hunfolds.nodup hsep (code.decided_classify optimize hsep)

end Arena

/-- **Flattening.** An arena in the shape of a tree whose literals have different names converts to the
flattening of its code, with one function for each literal. The result does not depend on numbers:
arenas with the same nested entry convert to the same nested program. The arenas of nested blocks and
those that structured scripts build have the shape of a tree. -/
theorem toTree_applyTo :
    (∀ (a : Arena) (optimize : Bool), a.IsNested → ∃ code c p,
      a.code Arena.entry = .ok code ∧ a.classify optimize = .ok c ∧ c.applyTo a = .ok p ∧
        p.toTree = .ok (code.flattened c) ∧
        (code.flattened c).functions.Perm (code.literals.map (·.function c))) ∧
    (∀ (a a' : Arena) (optimize : Bool) (code code' : Code), a.IsNested → a'.IsNested →
      a.code Arena.entry = .ok code → a'.code Arena.entry = .ok code' → code.erase = code'.erase →
      ∃ p p' tree, a.convert optimize = .ok p ∧ a'.convert optimize = .ok p' ∧
        p.toTree = .ok tree ∧ p'.toTree = .ok tree) ∧
    (∀ t : Block, (Arena.ofBlock t).Built ∧ (Arena.ofBlock t).TreeShaped) ∧
    ∀ s : Script, s.Structured →
      (s.run Arena.empty Arena.entry).1.Built ∧ (s.run Arena.empty Arena.entry).1.TreeShaped := by
  refine ⟨fun a optimize ha => ?_, fun a a' optimize code code' ha ha' hcode hcode' herase => ?_,
    fun t => ⟨Arena.built_ofBlock t, Arena.treeShaped_ofBlock t⟩,
    fun s hs => ⟨Arena.Built.empty.run s _, Arena.treeShaped_run hs⟩⟩
  · obtain ⟨code, p, hunfolds, hsep, hp, htree⟩ := ha.exists_program optimize
    exact ⟨code, _, p, hunfolds.code_eq List.mem_cons_self, hunfolds.classify_eq optimize, hp,
      htree, Code.functions_perm hsep.1⟩
  · obtain ⟨d, p, hunfolds, -, hp, htree⟩ := ha.exists_program optimize
    obtain ⟨d', p', hunfolds', -, hp', htree'⟩ := ha'.exists_program optimize
    obtain rfl : d = code := Except.ok.inj
      ((hunfolds.code_eq List.mem_cons_self).symm.trans hcode)
    obtain rfl : d' = code' := Except.ok.inj
      ((hunfolds'.code_eq List.mem_cons_self).symm.trans hcode')
    have hR := Code.oneToOne_corresponds hunfolds.nodup_ids hunfolds'.nodup_ids
    have hsame := (Code.same_of_erase_eq herase).2
    refine ⟨p, p', _, ?_, ?_, htree, ?_⟩
    · rw [Arena.convert, hunfolds.classify_eq]
      exact hp
    · rw [Arena.convert, hunfolds'.classify_eq]
      exact hp'
    · rw [htree', hsame.flattened_eq (hsame.agree_classify hR optimize)]

/-- The arena of the sample, built instruction by instruction: an instruction gets its number before
what is nested in it. -/
def Arena.scripted : Arena := ((Script.ofBlock Block.sample).run Arena.empty entry).1

/-- Two arenas of one program with other numbers become the same tree. -/
theorem toTree_applyTo_sample :
    (Arena.ofBlock Block.sample).IsNested ∧ Arena.scripted.IsNested ∧
      Arena.ofBlock Block.sample ≠ Arena.scripted ∧
      ∃ p p' tree, (Arena.ofBlock Block.sample).convert true = .ok p ∧
        Arena.scripted.convert true = .ok p' ∧ p.toTree = .ok tree ∧ p'.toTree = .ok tree := by
  have hn : Block.sample.literalNames.Nodup := by decide
  have hunfolds := Arena.ofBlock_unfolds Block.sample
  have htree : Arena.scripted.TreeShaped :=
    (toTree_applyTo.2.2.2 _ (by simp [Script.ofBlock, Block.sample, Script.Structured, Rhs.blocks])).2
  have hbuilt : Arena.scripted.Built := Arena.Built.empty.run _ _
  obtain ⟨code, hcode⟩ := htree.exists_unfolds hbuilt.orderly
  have herase : code.erase = Block.sample := by
    have hmap : (Arena.scripted.code Arena.entry).map Code.erase = .ok Block.sample := by
      decide +kernel
    rw [hcode.code_eq (x := (Arena.entry, code)) List.mem_cons_self] at hmap
    exact Except.ok.inj hmap
  have ha : (Arena.ofBlock Block.sample).IsNested := by
    refine ⟨Arena.built_ofBlock _, Arena.treeShaped_ofBlock _, hunfolds.shows.distinctLiterals ?_⟩
    rwa [Block.erase_number]
  have ha' : Arena.scripted.IsNested :=
    ⟨hbuilt, htree, hcode.shows.distinctLiterals (by rwa [herase])⟩
  refine ⟨ha, ha', by decide +kernel, ?_⟩
  refine toTree_applyTo.2.1 _ _ true _ _ ha ha' (hunfolds.code_eq List.mem_cons_self)
    (hcode.code_eq List.mem_cons_self) ?_
  rw [Block.erase_number, herase]

end ClosureConversion
