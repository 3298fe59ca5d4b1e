import ClosureConversion.Proofs.Conversion.Closed
import ClosureConversion.Proofs.Exploration.Bookkeeping

/-!
# Programs as applied classifications

A classification whose records are about the code that an arena shows can be applied to that arena
(`Arena.Shows.exists_applied`). `Applied` says what the program is then: every block is converted
(`Applied.shows_converted`), and the functions are literals of the code (`Applied.exists_literal`).
Nothing is assumed about scopes, and names may be shared.
-/

namespace ClosureConversion

/-- Applying a classification to an arena that shows the code it is about. -/
structure Applied (a : Arena) (code : Code) (c : Classification) (p : Program) : Prop where
  shows : a.Shows Arena.entry code
  concerns : c.Concerns code
  closures : p.closures = c.closures
  functions : p.functions = Classification.collect ∅ c.decisions.entries
  edited : Arena.Edited c.convertItem a p.arena

variable {a : Arena} {code : Code} {c : Classification}

/-- A literal of the code is an item of a block that the entry leads to. -/
theorem Arena.Shows.exists_item_literal (h : a.Shows Arena.entry code) {m : Member}
    (hm : m ∈ code.literals) : ∃ blk, a.Reaches blk ∧ m.item ∈ a.items blk := by
  obtain ⟨s, hs, rfl⟩ := List.mem_map.mp hm
  exact h.exists_item_site hs

/-- A classification that is about the code can be applied. -/
theorem Arena.Shows.exists_applied (h : a.Shows Arena.entry code) (ho : a.Orderly)
    (hc : c.Concerns code) : ∃ p, c.applyTo a = .ok p ∧ Applied a code c p := by
  have hcalls : ∀ id, c.closureCalls.contains id = true →
      ∃ blk, ∃ i ∈ a.items blk, i.id = id ∧ i.rhs.indirect?.isSome = true := by
    intro id hid
    obtain ⟨callee, hcall⟩ := hc.call id hid
    obtain ⟨blk, ident, args, indirect, -, hi⟩ := h.exists_item_call hcall
    exact ⟨blk, _, hi, rfl, rfl⟩
  have hfns : ∀ id d, c.decisions.get? id = some d →
      ∃ blk, ∃ i ∈ a.items blk, i.id = id ∧ i.rhs.isFn = true := by
    intro id d hd
    obtain ⟨m, hm, hid, -⟩ := hc.decision id d hd
    obtain ⟨blk, -, hi⟩ := h.exists_item_literal hm
    exact ⟨blk, _, hi, hid, rfl⟩
  obtain ⟨p, hp, hclosures, hfunctions, hedited⟩ := Classification.applyTo_spec ho hcalls hfns
  exact ⟨p, hp, h, hc, hclosures, hfunctions, hedited⟩

namespace Applied

variable {p : Program} {x : BlockId × Code}

/-- Only literals are decided, in every block. -/
theorem onlyLiteralsDecided (h : Applied a code c p) (hx : x ∈ code.blocks Arena.entry) :
    x.2.OnlyLiteralsDecided c := by
  intro i hi hfn
  rw [← (h.shows x hx).2] at hi
  by_contra hdec
  obtain ⟨d, hd⟩ := Option.ne_none_iff_exists'.mp hdec
  obtain ⟨m, hm, hid, -⟩ := h.concerns.decision _ d hd
  obtain ⟨blk, -, hitem⟩ := h.shows.exists_item_literal hm
  rw [Arena.eq_of_id_eq hi hitem hid.symm] at hfn
  cases hfn

/-- The converted arena shows every block converted. -/
theorem shows_converted (h : Applied a code c p) (hx : x ∈ code.blocks Arena.entry) :
    p.arena.Shows x.1 (x.2.converted c) :=
  Code.shows_converted (h.shows.of_mem_blocks hx) h.edited fun _ hy =>
    h.onlyLiteralsDecided (Code.blocks_subset_of_mem_blocks hx hy)

/-- If no block of the code is met twice, every block unfolds to its conversion. -/
theorem code_eq (h : Applied a code c p) (hn : (code.nested.map (·.1)).Nodup)
    (hx : x ∈ code.blocks Arena.entry) : p.arena.code x.1 = .ok (x.2.converted c) := by
  refine (h.shows_converted hx).code_eq (Code.nodup_nested_converted c ?_)
  exact ((Code.nested_sublist_of_mem_blocks x hx).map (·.1)).nodup hn

/-- The functions of the program are literals of the code. -/
theorem exists_literal (h : Applied a code c p) {f : Name} {fn : Function}
    (hf : p.functions.get? f = some fn) :
    ∃ m ∈ code.literals, m.ident = f ∧ fn = ⟨m.params, m.blk⟩ := by
  rw [h.functions] at hf
  rcases Classification.exists_of_get?_collect hf with hempty | ⟨⟨id, d⟩, he, rfl, rfl⟩
  · exact absurd hempty (by simp)
  · obtain ⟨m, hm, -, hname, hparams, hbody⟩ :=
      h.concerns.decision id d (Table.mem_entries_iff.mp he)
    exact ⟨m, hm, hname.symm, by rw [hparams, hbody]⟩

end Applied

end ClosureConversion
