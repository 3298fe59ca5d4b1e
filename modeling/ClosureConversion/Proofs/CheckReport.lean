import ClosureConversion.Command.Basic
import ClosureConversion.Proofs.CaptureLists

/-!
# What a check counts

The check of a program reports four numbers, each read off another table of the classification. For a
program whose literals are unique and called in scope they are numbers of things in the program and its
conversion (`checkArena_describes`):

* `Records.values_perm`, `Records.size_closures`, `NameSet.size_eq_countP`: the decisions, the captures and
  the known functions on record are those of the literals, none left out and none left over. So all these
  sizes are counts over one list, the literals.
* `Converts.covers_iff`: conversion takes no block out of reach. The bodies of literals become roots and
  conditionals stay.
* `Converts.indirectCall_iff`: the indirect calls that the program covers are the calls on record.
-/

namespace ClosureConversion

/-! ## Sizes of tables -/

namespace Table

variable {κ α : Type} [Ord κ] [Std.LawfulEqOrd κ]

/-- No key of a table comes twice. -/
theorem nodup_keys (t : Table κ α) : t.keys.Nodup := List.pairwise_map.mpr t.pairwise_key_ne

/-- A table has as many entries as it has keys, in whatever way they are listed once each. -/
theorem size_eq_length {t : Table κ α} {l : List κ} (hn : l.Nodup) (h : ∀ k, k ∈ t.keys ↔ k ∈ l) :
    t.size = l.length := by
  have hperm := (List.perm_ext_iff_of_nodup t.nodup_keys hn).mpr h
  rw [size, ← hperm.length_eq, keys, List.length_map]

/-- A table has as many keys as entries. -/
theorem encard_contains [DecidableEq κ] (t : Table κ α) : {k | t.contains k = true}.encard = t.size := by
  have hset : {k | t.contains k = true} = (t.keys.toFinset : Set κ) := by
    ext k
    rw [Set.mem_ofPred_eq, contains_iff, List.coe_toFinset, Set.mem_ofPred_eq, mem_keys_iff]
  rw [hset, Set.encard_coe_eq_coe_finsetCard, List.toFinset_card_of_nodup t.nodup_keys, size, keys,
    List.length_map]

end Table

/-! ## Counting literals -/

/-- A known function that is used as a value has a decision to be known and a closure record. -/
def Decision.isKnownValue (d : Decision) : Bool := d.standing == .known && d.action != .remove

namespace Site

variable {known : NameSet} {s : Site}

/-- A literal has an entry if it is a closure or used as a value. -/
theorem isSome_entry? : (s.entry? known).isSome = true ↔
    s.member.ident ∉ known ∨ s.member.ident ∈ s.suffix known := by
  unfold entry?
  split
  next h => exact iff_of_false (by simp) (by tauto)
  next h => exact iff_of_true rfl (by tauto)

/-- A literal is decided to be known if its name is. -/
theorem standing_eq_known : (s.decision known).standing = .known ↔ s.member.ident ∈ known := by
  by_cases h : s.member.ident ∈ known
  · exact iff_of_true (standing_of_mem h) h
  · rw [standing_of_not_mem h]
    exact iff_of_false (by decide) h

/-- A known function is used as a value if its own name is needed behind it. -/
theorem isKnownValue_decision : (s.decision known).isKnownValue = true ↔
    s.member.ident ∈ known ∧ s.member.ident ∈ s.suffix known := by
  have haction : (s.decision known).action ≠ .remove ↔ s.member.ident ∈ s.suffix known := by
    rw [← makeClosure_iff]
    cases (s.decision known).action <;> simp
  rw [Decision.isKnownValue, Bool.and_eq_true, beq_iff_eq, bne_iff_ne, standing_eq_known, haction]

end Site

/-- There are as many entries as closures and known functions that are used as values. -/
theorem countP_entry? (known : NameSet) (sites : List Site) :
    sites.countP (fun s => (s.entry? known).isSome) +
        sites.countP (fun s => (s.decision known).standing == .known) =
      sites.length + sites.countP (fun s => (s.decision known).isKnownValue) := by
  induction sites with
  | nil => rfl
  | cons s sites ih =>
      simp only [List.countP_cons, List.length_cons, Site.isSome_entry?, Site.isKnownValue_decision,
        beq_iff_eq, Site.standing_eq_known]
      by_cases hk : s.member.ident ∈ known
      · by_cases hv : s.member.ident ∈ s.suffix known
        · simp only [hk, hv, not_true, or_true, and_true, if_true]
          omega
        · simp only [hk, hv, not_true, or_false, and_false, if_true, if_false]
          omega
      · simp only [hk, not_false_iff, true_or, false_and, if_true, if_false]
        omega

namespace Records

variable {known : NameSet} {sites : List Site} {calls : List (RecordId × Name)} {c : Classification}

/-- There is one decision for each literal, and no other. -/
theorem values_perm (h : Records known [] sites calls .empty c)
    (hn : (sites.map (·.member.id)).Nodup) :
    c.decisions.values.Perm (sites.map (·.decision known)) := by
  have hentries : c.decisions.entries.Perm
      (sites.map fun s => (s.member.id, s.decision known)) := by
    refine (List.perm_ext_iff_of_nodup ?_ ?_).mpr ?_
    · exact c.decisions.nodup_keys.of_map
    · refine List.Nodup.of_map Prod.fst ?_
      rwa [List.map_map]
    · rintro ⟨id, d⟩
      rw [Table.mem_entries_iff, List.mem_map]
      constructor
      · intro hd
        obtain ⟨s, hs, rfl, rfl⟩ := h.exists_site hd
        exact ⟨s, hs, rfl⟩
      · rintro ⟨s, hs, heq⟩
        obtain ⟨rfl, rfl⟩ := Prod.mk.inj heq
        exact h.decision s hs
  have hvalues := hentries.map Prod.snd
  rwa [List.map_map] at hvalues

/-- To count decisions is to count literals, if no two have one record. -/
theorem countP_values (h : Records known [] sites calls .empty c)
    (hn : (sites.map (·.member.id)).Nodup) (q : Decision → Bool) :
    c.decisions.values.countP q = sites.countP fun s => q (s.decision known) := by
  rw [(h.values_perm hn).countP_eq, List.countP_map]
  rfl

/-- There is one decision for each literal. -/
theorem size_decisions (h : Records known [] sites calls .empty c)
    (hn : (sites.map (·.member.id)).Nodup) : c.decisions.size = sites.length := by
  have hlen := (h.values_perm hn).length_eq
  rwa [Table.values, List.length_map, List.length_map] at hlen

/-- The known functions that are counted are the literals decided to be known. -/
theorem knownCount_eq (h : Records known [] sites calls .empty c)
    (hn : (sites.map (·.member.id)).Nodup) :
    c.knownCount = sites.countP fun s => (s.decision known).standing == .known := by
  rw [Classification.knownCount, ← List.countP_eq_length_filter, h.countP_values hn]

/-- Captures are on record for the literals that have an entry, and for nothing else. -/
theorem size_closures (h : Records known [] sites calls .empty c)
    (hn : (sites.map (·.member.ident)).Nodup) :
    c.closures.size = sites.countP fun s => (s.entry? known).isSome := by
  rw [List.countP_eq_length_filter, ← List.length_map (·.member.ident)]
  refine Table.size_eq_length ((List.filter_sublist.map _).nodup hn) fun n => ?_
  rw [Table.mem_keys_iff, List.mem_map]
  constructor
  · rintro ⟨captures, hget⟩
    obtain ⟨m, hm, rfl⟩ := h.exists_member hget
    obtain ⟨s, hs, rfl⟩ := List.mem_map.mp hm
    rw [h.entry s hs] at hget
    exact ⟨s, List.mem_filter.mpr ⟨hs, Option.isSome_of_mem hget⟩, rfl⟩
  · rintro ⟨s, hs, rfl⟩
    obtain ⟨hs, hsome⟩ := List.mem_filter.mp hs
    rw [h.entry s hs]
    exact Option.isSome_iff_exists.mp hsome

end Records

/-- If only literals are known, the known functions are the literals decided to be. -/
theorem NameSet.size_eq_countP {known : NameSet} {sites : List Site}
    (hn : (sites.map (·.member.ident)).Nodup)
    (hk : ∀ f ∈ known, ∃ s ∈ sites, s.member.ident = f) :
    known.size = sites.countP fun s => (s.decision known).standing == .known := by
  have hperm : known.toList.Perm
      ((sites.filter fun s => (s.decision known).standing == .known).map (·.member.ident)) := by
    refine (List.perm_ext_iff_of_nodup known.nodup ((List.filter_sublist.map _).nodup hn)).mpr ?_
    intro f
    simp only [List.mem_map, List.mem_filter, beq_iff_eq, Site.standing_eq_known]
    constructor
    · intro hf
      obtain ⟨s, hs, rfl⟩ := hk f hf
      exact ⟨s, ⟨hs, hf⟩, rfl⟩
    · rintro ⟨s, ⟨-, hf⟩, rfl⟩
      exact hf
  rw [NameSet.size, hperm.length_eq, List.length_map, List.countP_eq_length_filter]

/-! ## The converted program -/

/-- An indirect call among the instructions that a program covers. -/
def Program.IndirectCall (p : Program) (id : RecordId) : Prop :=
  ∃ blk, p.Covers blk ∧ ∃ ident callee args,
    ⟨id, ident, .op (.app callee args true)⟩ ∈ p.arena.items blk

namespace Applied

variable {a : Arena} {code : Code} {c : Classification} {p : Program}

/-- What is no literal stays, with its call marked if it is on record. -/
theorem mark_mem_items (h : Applied a code c p) {blk : BlockId} (hr : a.Reaches blk) {i : Item}
    (hi : i ∈ a.items blk) (hfn : i.rhs.isFn = false) : c.mark i ∈ p.arena.items blk := by
  obtain ⟨d, hd⟩ := h.shows.reaches_iff.mp hr
  have hundecided : c.decisions.get? i.id = none := by
    refine h.onlyLiteralsDecided hd i ?_ hfn
    rwa [← (h.shows _ hd).2]
  rw [h.edited.items]
  exact List.mem_filterMap.mpr ⟨i, hi, Classification.convertItem_of_undecided hundecided⟩

/-- Conditionals stay. -/
theorem ifEdge_iff (h : Applied a code c p) {blk blk' : BlockId} (hr : a.Reaches blk) :
    p.arena.IfEdge blk blk' ↔ a.IfEdge blk blk' := by
  refine ⟨h.ifEdge, ?_⟩
  rintro ⟨i, hi, cond, yes, no, hrhs, hor⟩
  have hmem := h.mark_mem_items hr hi (by rw [hrhs]; rfl)
  rw [c.mark_eq_self (by rw [hrhs]; rfl)] at hmem
  exact ⟨i, hmem, cond, yes, no, hrhs, hor⟩

/-- Where nothing was indirect before, an indirect call is on record. -/
theorem contains_of_indirectCall (h : Applied a code c p) (hs : code.erase.IsSource) {id : RecordId}
    (hcall : p.IndirectCall id) : c.closureCalls.contains id = true := by
  obtain ⟨blk, hb, ident, callee, args, hj⟩ := hcall
  rw [h.edited.items] at hj
  obtain ⟨i, hi, hconv⟩ := List.mem_filterMap.mp hj
  rcases Classification.convertItem_cases hconv with rfl | ⟨hid, callee', args', heq⟩ |
    ⟨d, captures, -, -, hmade⟩
  · obtain ⟨inner, hinner⟩ := h.shows.reaches_iff.mp (h.reaches_of_covers hb)
    rw [(h.shows _ hinner).2] at hi
    have hop := Code.operations_subset_of_mem_blocks _ hinner (Code.mem_operations_of_mem_heads hi)
    exact absurd (hs _ hop) Bool.false_ne_true
  · obtain ⟨rfl, -, -⟩ := Item.mk.inj heq
    exact hid
  · cases hmade

end Applied

namespace Converts

variable {a : Arena} {code : Code} {c : Classification} {p : Program}

/-- Where names are distinct, each literal is the function of its name. -/
theorem get?_functions (h : Converts a code c p) (hn : (code.literals.map (·.ident)).Nodup)
    {m : Member} (hm : m ∈ code.literals) : p.functions.get? m.ident = some ⟨m.params, m.blk⟩ := by
  obtain ⟨fn, hfn⟩ := Table.contains_iff.mp (h.contains_functions_iff.mpr ⟨m, hm, rfl⟩)
  obtain ⟨m', hm', hident, rfl⟩ := h.applied.exists_literal hfn
  rwa [List.inj_on_of_nodup_map hn hm' hm hident] at hfn

/-- The program has one function for each literal, if no two share a name. -/
theorem size_functions (h : Converts a code c p) (hn : (code.literals.map (·.ident)).Nodup) :
    p.functions.size = code.literals.length := by
  rw [← List.length_map (·.ident)]
  refine Table.size_eq_length hn fun f => ?_
  rw [Table.mem_keys_iff, ← Table.contains_iff, h.contains_functions_iff, List.mem_map]

/-- The program covers the blocks that the entry led to before. -/
theorem covers_iff (h : Converts a code c p) (hn : (code.literals.map (·.ident)).Nodup)
    {blk : BlockId} : p.Covers blk ↔ a.Reaches blk := by
  refine ⟨h.applied.reaches_of_covers, fun hr => ?_⟩
  induction hr with
  | entry => exact ⟨Arena.entry, .inl rfl, .refl⟩
  | @step blk body i hr hi hb ih =>
      rcases Arena.edge_iff.mpr ⟨i, hi, hb⟩ with ⟨j, hj, params, hrhs⟩ | hif
      · -- the way into a literal is gone, but its body is a function now
        have hliteral : a.HasLiteral j.id j.ident params body := ⟨blk, hr, hrhs ▸ hj⟩
        obtain ⟨m, hm, hitem⟩ := h.unfolds.shows.hasLiteral_iff.mp hliteral
        obtain ⟨-, hblk⟩ := Rhs.fn.inj (congrArg Item.rhs hitem)
        exact ⟨body, .inr ⟨m.ident, _, h.get?_functions hn hm, hblk⟩, .refl⟩
      · obtain ⟨root, hroot, hpath⟩ := ih
        exact ⟨root, hroot, hpath.tail ((h.applied.ifEdge_iff hr).mpr hif)⟩

/-- The indirect calls of the program are the calls on record. -/
theorem indirectCall_iff (h : Converts a code c p) (hn : (code.literals.map (·.ident)).Nodup)
    (hs : code.erase.IsSource) {id : RecordId} :
    p.IndirectCall id ↔ c.closureCalls.contains id = true := by
  refine ⟨h.applied.contains_of_indirectCall hs, fun hid => ?_⟩
  obtain ⟨callee, hcall, -⟩ := h.records.exists_call hid
  obtain ⟨blk, ident, args, indirect, hr, hi⟩ := h.unfolds.shows.exists_item_call hcall
  have hmem := h.applied.mark_mem_items hr hi rfl
  rw [Classification.mark_app hid] at hmem
  exact ⟨blk, (h.covers_iff hn).mpr hr, ident, callee, args, hmem⟩

end Converts

/-! ## The report -/

/-- The report of a check is clean, and its numbers are those of the program `t`, its classification and
its conversion. -/
structure CheckReport.Describes (r : CheckReport) (t : Block) (c : Classification) (p : Program) :
    Prop where
  clean : r.diagnostics = []
  functions : r.functions = t.literalNames.length
  table : r.functions = p.functions.size
  known : r.known = c.known.size
  known_le : r.known ≤ r.functions
  /-- Every closure has a closure record, and so has every known function that is used as a value. -/
  closureRecords : r.closureRecords =
    r.functions - r.known + c.decisions.values.countP Decision.isKnownValue
  indirectCalls : {id | p.IndirectCall id}.encard = r.indirectCalls

/-- A program that passes is reported with its counts and no findings. -/
theorem checkArena_of_verify {a : Arena} {optimize : Bool} {c : Classification} {p : Program}
    (hc : a.classify optimize = .ok c) (hp : c.applyTo a = .ok p) (hv : verify a c p = .ok [])
    (file : String) : checkArena a optimize file =
      ⟨[], c.decisions.size, c.knownCount, p.closures.size, c.closureCalls.size⟩ := by
  rw [checkArena, hc]
  simp only [hp, hv, List.map_nil]

/-- **Check reports.** With or without the optimisation, the check of a program whose literals are unique
and called in scope is clean, and its numbers describe the program and its conversion. -/
theorem checkArena_describes (t : Block) (optimize : Bool) (file : String) (hs : t.IsSource)
    (hu : t.UniqueLiterals) (hc : t.CallsInScope t.literalNames []) :
    ∃ c p, (Arena.ofBlock t).classify optimize = .ok c ∧
      (Arena.ofBlock t).convert optimize = .ok p ∧
      (checkArena (Arena.ofBlock t) optimize file).Describes t c p := by
  obtain ⟨c, p, hclassify, hp, h⟩ := Block.exists_converts hu hc optimize
  have herase : (t.number 1 2).erase = t := t.erase_number 1 2
  have hsource : (t.number 1 2).erase.IsSource := herase.symm ▸ hs
  have hconvert : (Arena.ofBlock t).convert optimize = .ok p := by
    rw [Arena.convert, hclassify]
    exact hp
  obtain ⟨hnames, hids⟩ := (Block.placed_number hu hc 1 2).separate
  have hsites : ((t.number 1 2).sites.map (·.member.ident)).Nodup := by
    rwa [Code.literals, List.map_map] at hnames
  have hrecords : ((t.number 1 2).sites.map (·.member.id)).Nodup := by
    rwa [Code.literals, List.map_map] at hids
  have hcount : (t.number 1 2).sites.length = t.literalNames.length := by
    have hlen := (t.number 1 2).literalNames_perm.length_eq
    rw [herase, Code.literals, List.length_map, List.length_map] at hlen
    exact hlen.symm
  have hknown : ∀ f ∈ c.known, ∃ s ∈ (t.number 1 2).sites, s.member.ident = f := by
    intro f hf
    rw [← Except.ok.inj (((Arena.ofBlock_unfolds t).classify_eq optimize).symm.trans hclassify)] at hf
    obtain ⟨m, hm, rfl⟩ :=
      ((t.classify_progress hu hc optimize).adds f hf).resolve_left (NameSet.not_mem_empty f)
    obtain ⟨s, hs, rfl⟩ := List.mem_map.mp hm
    exact ⟨s, hs, rfl⟩
  refine ⟨c, p, hclassify, hconvert, ?_⟩
  rw [checkArena_of_verify hclassify hp (h.verify_eq hsource)]
  -- every number but the last is a count over the literals
  have hfunctions := h.records.size_decisions hrecords
  have hstanding := h.records.knownCount_eq hrecords
  have hle : c.knownCount ≤ c.decisions.size := by
    rw [hstanding, hfunctions]
    exact List.countP_le_length
  refine ⟨rfl, hfunctions.trans hcount, ?_, ?_, hle, ?_, ?_⟩
  · rw [hfunctions, h.size_functions hnames, Code.literals, List.length_map]
  · rw [hstanding, NameSet.size_eq_countP hsites hknown]
  · have hbalance := countP_entry? c.known (t.number 1 2).sites
    rw [← h.records.size_closures hsites, ← hstanding, ← hfunctions,
      ← h.records.countP_values hrecords Decision.isKnownValue] at hbalance
    dsimp only
    rw [h.closures]
    omega
  · rw [← c.closureCalls.encard_contains]
    exact congrArg Set.encard (Set.ext fun id => h.indirectCall_iff hnames hsource)

/-- One of the four functions is known and is used as a value, and two of the five calls are direct. -/
theorem checkArena_describes_sample :
    Block.sample.IsSource ∧ Block.sample.UniqueLiterals ∧
      Block.sample.CallsInScope Block.sample.literalNames [] ∧
      ∃ c p, (Arena.ofBlock Block.sample).classify true = .ok c ∧
        (Arena.ofBlock Block.sample).convert true = .ok p ∧
        (checkArena (Arena.ofBlock Block.sample) true "sample.json").Describes Block.sample c p ∧
        c.known.size = 1 ∧ c.decisions.values.countP Decision.isKnownValue = 1 ∧
        {id | p.IndirectCall id}.encard = 3 := by
  obtain ⟨c, p, hc, hp, h⟩ :=
    checkArena_describes Block.sample true "sample.json" (by decide) (by decide) (by decide)
  have hnumbers : (checkArena (Arena.ofBlock Block.sample) true "sample.json").functions = 4 ∧
      (checkArena (Arena.ofBlock Block.sample) true "sample.json").known = 1 ∧
      (checkArena (Arena.ofBlock Block.sample) true "sample.json").closureRecords = 4 ∧
      (checkArena (Arena.ofBlock Block.sample) true "sample.json").indirectCalls = 3 := by
    decide +kernel
  obtain ⟨hfunctions, hknown, hclosures, hcalls⟩ := hnumbers
  refine ⟨by decide, by decide, by decide, c, p, hc, hp, h, ?_, ?_, ?_⟩
  · rw [← h.known, hknown]
  · have hsum := h.closureRecords
    omega
  · rw [h.indirectCalls, hcalls]
    rfl

end ClosureConversion
