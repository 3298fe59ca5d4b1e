import ClosureConversion.Proofs.Arena.Lowering
import ClosureConversion.Proofs.Exploration.Agreement
import ClosureConversion.Proofs.Exploration.Places

/-!
# The classification of an arena

What the result of a classification says about the arena, with no word about how it came about.

* `Arena.HasLiteral`: the function literals in the blocks that the entry leads to.
* `Arena.Admissible`: a set of functions none of which has free names if all of them are known. The
  known functions are the greatest such set.
-/

namespace ClosureConversion

/-! ## Placement of lowered code -/

namespace Block

/-- The records of literals have numbers that lowering has given out. -/
theorem literal_id_mem {b : Block} {blocks records : Nat} {m : Member}
    (hm : m ∈ (b.number blocks records).literals) : m.id ∈ List.range' records b.recordCount := by
  induction b generalizing blocks records with
  | done => exact absurd hm List.not_mem_nil
  | op ident o rest ih =>
      have hid := List.mem_range'_1.mp (ih hm)
      rw [recordCount, List.mem_range'_1]
      omega
  | fn ident params body rest ihb ih =>
      rw [number, (Code.literals_fn_perm ..).mem_iff] at hm
      rw [recordCount, List.mem_range'_1]
      rcases List.mem_cons.mp hm with rfl | hm
      · dsimp only
        omega
      rcases List.mem_append.mp hm with hm | hm
      · have hid := List.mem_range'_1.mp (ihb hm)
        omega
      · have hid := List.mem_range'_1.mp (ih hm)
        omega
  | branch ident cond yes no rest ihy ihn ih =>
      rw [number, (Code.literals_branch_perm ..).mem_iff] at hm
      rw [recordCount, List.mem_range'_1]
      rcases List.mem_append.mp hm with hm | hm
      · have hid := List.mem_range'_1.mp (ihy hm)
        omega
      rcases List.mem_append.mp hm with hm | hm
      · have hid := List.mem_range'_1.mp (ihn hm)
        omega
      · have hid := List.mem_range'_1.mp (ih hm)
        omega

/-- The records of literals are among those of the block. -/
theorem mem_map_literal_id {b : Block} {blocks records : Nat} {id : RecordId}
    (h : id ∈ (b.number blocks records).literals.map (·.id)) :
    id ∈ List.range' records b.recordCount := by
  obtain ⟨m, hm, rfl⟩ := List.mem_map.mp h
  exact literal_id_mem hm

/-- No two literals have one record. -/
theorem nodup_literal_ids (b : Block) (blocks records : Nat) :
    ((b.number blocks records).literals.map (·.id)).Nodup := by
  induction b generalizing blocks records with
  | done => exact List.nodup_nil
  | op ident o rest ih => exact ih blocks (records + 1)
  | fn ident params body rest ihb ih =>
      rw [number, ((Code.literals_fn_perm ..).map _).nodup_iff, List.map_cons, List.map_append,
        List.nodup_cons, List.nodup_append]
      refine ⟨fun hid => ?_, ihb _ _, ih _ _, fun id hid id' hid' => ?_⟩
      · dsimp only at hid
        rcases List.mem_append.mp hid with hid | hid
        · have h := List.mem_range'_1.mp (mem_map_literal_id hid)
          omega
        · have h := List.mem_range'_1.mp (mem_map_literal_id hid)
          omega
      · have h := List.mem_range'_1.mp (mem_map_literal_id hid)
        have h' := List.mem_range'_1.mp (mem_map_literal_id hid')
        refine Nat.ne_of_lt ?_
        omega
  | branch ident cond yes no rest ihy ihn ih =>
      rw [number, ((Code.literals_branch_perm ..).map _).nodup_iff, List.map_append,
        List.map_append, List.nodup_append, List.nodup_append]
      refine ⟨ihy _ _, ⟨ihn _ _, ih _ _, fun id hid id' hid' => ?_⟩, fun id hid id' hid' => ?_⟩
      · have h := List.mem_range'_1.mp (mem_map_literal_id hid)
        have h' := List.mem_range'_1.mp (mem_map_literal_id hid')
        refine Nat.ne_of_lt ?_
        omega
      · have h := List.mem_range'_1.mp (mem_map_literal_id hid)
        refine Nat.ne_of_lt ?_
        rcases List.mem_append.mp hid' with hid' | hid'
        · have h' := List.mem_range'_1.mp (mem_map_literal_id hid')
          omega
        · have h' := List.mem_range'_1.mp (mem_map_literal_id hid')
          omega

/-- The code of a program whose literals are unique and called in scope is placed at the top. -/
theorem placed_number {t : Block} (hu : t.UniqueLiterals)
    (hc : t.CallsInScope t.literalNames []) (blocks records : Nat) :
    (t.number blocks records).Placed t.literalNames [] := by
  have hperm := (t.number blocks records).literalNames_perm
  rw [erase_number] at hperm
  refine ⟨?_, ⟨?_, t.nodup_literal_ids blocks records⟩, ?_, ?_⟩
  · rw [erase_number]
    exact hc
  · exact hperm.nodup_iff.mp hu.nodup
  · exact fun _ _ => List.not_mem_nil
  · exact fun m hm => hperm.mem_iff.mpr (List.mem_map_of_mem hm)

end Block

namespace Arena

variable {a : Arena} {c : Code}

/-! ## The literals of an arena -/

/-- A function literal stands in a block that the entry leads to. -/
def HasLiteral (a : Arena) (id : RecordId) (f : Name) (params : List Name) (body : BlockId) : Prop :=
  ∃ blk, a.Reaches blk ∧ ⟨id, f, .fn params body⟩ ∈ a.items blk

/-- Code shown at the entry is classified in place of the arena. -/
theorem Unfolds.classify_eq (h : a.Unfolds c) (optimize : Bool) :
    a.classify optimize = .ok (c.classify optimize).val :=
  classify_of_code_eq_ok (h.code_eq List.mem_cons_self) optimize

/-- A site of the code is an item of a block that the entry leads to. -/
theorem Shows.exists_item_site (h : a.Shows entry c) {s : Site} (hs : s ∈ c.sites) :
    ∃ blk, a.Reaches blk ∧ s.member.item ∈ a.items blk := by
  obtain ⟨x, hx, hs⟩ := (Code.mem_sites_iff entry).mp hs
  obtain ⟨pre, post, hat⟩ := Code.exists_at hs
  refine ⟨x.1, h.reaches_iff.mpr ⟨x.2, hx⟩, ?_⟩
  rw [(h x hx).2, hat.heads]
  exact List.mem_append_right _ List.mem_cons_self

/-- A call of the code is an item of a block that the entry leads to. -/
theorem Shows.exists_item_call (h : a.Shows entry c) {id : RecordId} {callee : Name}
    (hc : (id, callee) ∈ c.calls) :
    ∃ blk ident args indirect, a.Reaches blk ∧
      ⟨id, ident, .op (.app callee args indirect)⟩ ∈ a.items blk := by
  obtain ⟨x, hx, hc⟩ := (Code.mem_calls_iff entry).mp hc
  obtain ⟨ident, args, indirect, hi⟩ := Code.mem_ownCalls.mp hc
  exact ⟨x.1, ident, args, indirect, h.reaches_iff.mpr ⟨x.2, hx⟩, (h x hx).2 ▸ hi⟩

/-- The literals of an arena are those of its code. -/
theorem Shows.hasLiteral_iff (h : a.Shows entry c) {id : RecordId} {f : Name} {params : List Name}
    {body : BlockId} :
    a.HasLiteral id f params body ↔ ∃ m ∈ c.literals, m.item = ⟨id, f, .fn params body⟩ := by
  constructor
  · rintro ⟨blk, hr, hi⟩
    obtain ⟨d, hd⟩ := h.reaches_iff.mp hr
    rw [(h _ hd).2] at hi
    obtain ⟨pre, post, hi⟩ := List.append_of_mem hi
    obtain ⟨s, hs, hitem, -⟩ := Code.exists_site rfl hi []
    exact ⟨s.member, List.mem_map_of_mem ((Code.mem_sites_iff entry).mpr ⟨_, hd, hs⟩), hitem⟩
  · rintro ⟨m, hm, hitem⟩
    obtain ⟨s, hs, rfl⟩ := List.mem_map.mp hm
    rw [HasLiteral, ← hitem]
    exact h.exists_item_site hs

/-- The walk of the body of a literal finds its free names. -/
theorem Unfolds.freeNames_literal (h : a.Unfolds c) {m : Member} (hm : m ∈ c.literals)
    (known : NameSet) : a.functionFreeNames known m.params m.blk = .ok (m.freeNames known) := by
  obtain ⟨s, hs, rfl⟩ := List.mem_map.mp hm
  obtain ⟨x, hx, hs⟩ := (Code.mem_sites_iff entry).mp hs
  obtain ⟨pre, post, hat⟩ := Code.exists_at hs
  exact h.freeNames_site hx hat known

/-! ## Known functions -/

/-- A set of functions of the arena none of which has free names if all of them are known. -/
structure Admissible (a : Arena) (known : NameSet) : Prop where
  literal : ∀ f ∈ known, ∃ id params body, a.HasLiteral id f params body
  noFree : ∀ f ∈ known, ∀ id params body, a.HasLiteral id f params body →
    a.functionFreeNames known params body = .ok ∅

/-- A set is admissible if it holds names of literals only and supports every literal. -/
theorem Unfolds.admissible_iff (h : a.Unfolds c) {known : NameSet} :
    a.Admissible known ↔
      (∀ f ∈ known, ∃ m ∈ c.literals, m.ident = f) ∧ ∀ m ∈ c.literals, m.Supported known := by
  have hlit : ∀ m ∈ c.literals, a.HasLiteral m.id m.ident m.params m.blk := fun m hm =>
    h.shows.hasLiteral_iff.mpr ⟨m, hm, rfl⟩
  constructor
  · intro ha
    refine ⟨fun f hf => ?_, fun m hm hk => ?_⟩
    · obtain ⟨id, params, body, hl⟩ := ha.literal f hf
      obtain ⟨m, hm, hitem⟩ := h.shows.hasLiteral_iff.mp hl
      exact ⟨m, hm, congrArg Item.ident hitem⟩
    · have hfree := ha.noFree _ hk _ _ _ (hlit m hm)
      rw [h.freeNames_literal hm] at hfree
      exact NameSet.eq_empty_iff.mp (Except.ok.inj hfree)
  · rintro ⟨hname, hsup⟩
    refine ⟨fun f hf => ?_, fun f hf id params body hl => ?_⟩
    · obtain ⟨m, hm, rfl⟩ := hname f hf
      exact ⟨_, _, _, hlit m hm⟩
    · obtain ⟨m, hm, hitem⟩ := h.shows.hasLiteral_iff.mp hl
      obtain ⟨rfl, rfl, hrhs⟩ := Item.mk.inj hitem
      obtain ⟨rfl, rfl⟩ := Rhs.fn.inj hrhs
      rw [h.freeNames_literal hm, NameSet.eq_empty_iff.mpr (hsup m hm hf)]

end Arena

/-- Classifying the arena of a nested block judges and records all its literals and calls. -/
theorem Block.classify_progress {t : Block} (hu : t.UniqueLiterals)
    (hc : t.CallsInScope t.literalNames []) (optimize : Bool) :
    Progress optimize t.literalNames [] (t.number 1 2).literals [] (t.number 1 2).sites
      (t.number 1 2).calls .empty ((t.number 1 2).classify optimize).val :=
  Code.classify_progress (placed_number hu hc 1 2)

/-- Known functions are literals of the program. -/
theorem Block.classify_known_subset {t : Block} (hu : t.UniqueLiterals)
    (hc : t.CallsInScope t.literalNames []) (optimize : Bool) :
    ∀ f ∈ ((t.number 1 2).classify optimize).val.known, f ∈ t.literalNames :=
  (t.classify_progress hu hc optimize).known_subset (fun n hn => absurd hn (NameSet.not_mem_empty n))
    (placed_number hu hc 1 2).declared

/-- Afterwards the records are right under the known functions of the result. -/
theorem Block.classify_records {t : Block} (hu : t.UniqueLiterals)
    (hc : t.CallsInScope t.literalNames []) (optimize : Bool) :
    Records ((t.number 1 2).classify optimize).val.known [] (t.number 1 2).sites
      (t.number 1 2).calls .empty ((t.number 1 2).classify optimize).val :=
  (t.classify_progress hu hc optimize).records _ (t.classify_known_subset hu hc optimize)
    (fun _ _ => Iff.rfl) fun _ _ => Iff.rfl

/-- **Known functions.** With the optimisation, the known functions are an admissible set, and they
contain every other one. -/
theorem classify_known_greatest (t : Block) (hu : t.UniqueLiterals)
    (hc : t.CallsInScope t.literalNames []) :
    ∃ c, (Arena.ofBlock t).classify true = .ok c ∧ (Arena.ofBlock t).Admissible c.known ∧
      ∀ known, (Arena.ofBlock t).Admissible known → ∀ f ∈ known, f ∈ c.known := by
  have ha := Arena.ofBlock_unfolds t
  have hp := t.classify_progress hu hc true
  refine ⟨_, ha.classify_eq true, ?_, ?_⟩
  · refine ha.admissible_iff.mpr ⟨fun f hf => ?_, hp.sound⟩
    exact (hp.adds f hf).resolve_left (NameSet.not_mem_empty f)
  · intro known hadm f hf
    obtain ⟨hname, hsup⟩ := ha.admissible_iff.mp hadm
    have hfns : ∀ n ∈ known, n ∈ t.literalNames := by
      intro n hn
      obtain ⟨m, hm, rfl⟩ := hname n hn
      exact (Block.placed_number hu hc 1 2).declared m hm
    obtain ⟨m, hm, rfl⟩ := hname f hf
    exact hp.maximal rfl known hfns hsup (fun _ hn => absurd hn List.not_mem_nil) m hm hf

/-- Two functions that call one another, one of them over a name from outside, and a function that
calls itself, holds a literal of its own and is used as a value. -/
def Block.sample : Block :=
  .op "a" (.int 1) <|
  .fn "f" ["x"] (.op "y" (.app "g" ["x"] false) .done) <|
  .fn "g" ["z"] (.op "w" (.app "f" ["z"] false) <| .op "v" (.ref "a") .done) <|
  .op "b" (.app "f" ["a"] false) <|
  .fn "h" ["u"]
    (.branch "r" "u"
      (.fn "k" [] (.op "s" (.app "h" ["u"] false) .done) <| .op "t" (.ref "k") .done)
      (.op "q" (.app "h" ["u"] false) .done) .done) <|
  .op "e" (.tuple ["h", "b"]) .done

/-- The known functions of the sample are admissible, and no admissible set has more. -/
theorem classify_known_greatest_sample :
    Block.sample.UniqueLiterals ∧
      Block.sample.CallsInScope Block.sample.literalNames [] ∧
      ∃ c, (Arena.ofBlock Block.sample).classify true = .ok c ∧
        (Arena.ofBlock Block.sample).Admissible c.known ∧
        ∀ known, (Arena.ofBlock Block.sample).Admissible known → ∀ f ∈ known, f ∈ c.known :=
  ⟨by decide, by decide, classify_known_greatest Block.sample (by decide) (by decide)⟩

end ClosureConversion
