import ClosureConversion.Proofs.Arena.Unfolding
import ClosureConversion.Proofs.Exploration.Sites

/-!
# Literals and calls at their places in an arena

The exploration speaks of the sites and calls of code. This file says where they stand in an arena
that shows the code: which items they are (`Code.mem_calls_iff`, `Code.mem_sites_iff`), what stands
before and behind a literal in its block (`Site.At`), and that the free names of its body, of what
follows it and of the members of its run before it are those that the arena has
(`Arena.Unfolds.freeNames_site`, `freeNamesFrom_site`, `neededInRun_site`).
-/

namespace ClosureConversion

/-! ## Calls and literals by block -/

/-- A literal as an item. -/
def Member.item (m : Member) : Item := ⟨m.id, m.ident, .fn m.params m.blk⟩

namespace Code

variable {c : Code} {blk : BlockId}

/-- The inner literals are those of the nested blocks. -/
theorem innerSites_eq_flatMap (c : Code) : c.innerSites = c.nested.flatMap (·.2.ownSites []) := by
  induction c with
  | done => rfl
  | op id ident o rest ih => exact ih
  | fn id ident params blk body rest ihb ih =>
      simp only [innerSites, nested, List.flatMap_append, List.flatMap_cons, ihb, ih]
  | branch id ident cond yesBlk noBlk yes no rest ihy ihn ih =>
      simp only [innerSites, nested, List.flatMap_append, List.flatMap_cons, ihy, ihn, ih]

/-- The sites of code are those of its blocks. -/
theorem mem_sites_iff (blk : BlockId) {s : Site} :
    s ∈ c.sites ↔ ∃ x ∈ c.blocks blk, s ∈ x.2.ownSites [] := by
  rw [sites, innerSites_eq_flatMap, blocks]
  simp [List.mem_flatMap]

/-- The calls of a block itself. -/
def ownCalls (c : Code) : List (RecordId × Name) :=
  c.heads.flatMap fun i =>
    match i.rhs with
    | .op o => o.callee?.toList.map (i.id, ·)
    | _ => []

/-- The calls of code are those of its blocks. -/
theorem mem_calls_iff (blk : BlockId) {x : RecordId × Name} :
    x ∈ c.calls ↔ ∃ y ∈ c.blocks blk, x ∈ y.2.ownCalls := by
  have h : x ∈ c.calls ↔ x ∈ c.ownCalls ∨ ∃ y ∈ c.nested, x ∈ y.2.ownCalls := by
    induction c with
    | done => simp [calls, ownCalls, heads, nested]
    | op id ident o rest ih =>
        simp only [calls, ownCalls, heads, nested, List.flatMap_cons, List.mem_append] at ih ⊢
        rw [ih, or_assoc]
    | fn id ident params blk body rest ihb ih =>
        simp only [calls, ownCalls, heads, nested, List.flatMap_cons, List.mem_append,
          List.mem_cons, List.not_mem_nil] at ihb ih ⊢
        rw [ih, ihb]
        grind
    | branch id ident cond yesBlk noBlk yes no rest ihy ihn ih =>
        simp only [calls, ownCalls, heads, nested, List.flatMap_cons, List.mem_append,
          List.mem_cons, List.not_mem_nil] at ihy ihn ih ⊢
        rw [ih, ihy, ihn]
        grind
  rw [h, blocks]
  simp

/-- The calls of a block itself are its items that call. -/
theorem mem_ownCalls {id : RecordId} {callee : Name} :
    (id, callee) ∈ c.ownCalls ↔
      ∃ ident args indirect, ⟨id, ident, .op (.app callee args indirect)⟩ ∈ c.heads := by
  unfold ownCalls
  rw [List.mem_flatMap]
  constructor
  · rintro ⟨⟨id', ident, rhs⟩, hi, hx⟩
    cases rhs with
    | op o =>
        simp only [List.mem_map, Option.mem_toList] at hx
        obtain ⟨callee', ho, he⟩ := hx
        obtain ⟨rfl, rfl⟩ := Prod.mk.inj he
        obtain ⟨args, indirect, rfl⟩ := Operation.callee?_eq_some ho
        exact ⟨ident, args, indirect, hi⟩
    | fn params body => exact absurd hx List.not_mem_nil
    | branch cond yes no => exact absurd hx List.not_mem_nil
  · rintro ⟨ident, args, indirect, hi⟩
    exact ⟨_, hi, List.mem_cons_self⟩

end Code

/-! ## The place of a literal in its block -/

/-- A site is the literal of a block between the items `pre` and `post`. The members `earlier` of a
run that is going on stand before the block. -/
structure Site.At (earlier : List Member) (c : Code) (pre post : List Item) (s : Site) : Prop where
  heads : c.heads = pre ++ s.member.item :: post
  rest : s.member.rest.heads = post
  restNested : s.member.rest.nested.Sublist c.nested
  body : (s.member.blk, s.member.body) ∈ c.children
  run : s.earlier.map (·.item) = (earlier.map (·.item) ++ pre).rtakeWhile (·.rhs.isFn)
  runBody : ∀ e ∈ s.earlier, e ∈ earlier ∨ (e.blk, e.body) ∈ c.children

/-- The longest end of a list that passes a test does not reach beyond an element that fails it. -/
theorem rtakeWhile_append_cons {α : Type} {p : α → Bool} {x : α} (hx : p x = false)
    (l r : List α) : (l ++ x :: r).rtakeWhile p = r.rtakeWhile p := by
  induction r using List.reverseRecOn with
  | nil => rw [List.rtakeWhile_concat_neg p l x (by simp [hx]), List.rtakeWhile_nil]
  | append_singleton r y ih =>
      rw [← List.cons_append, ← List.append_assoc, List.rtakeWhile_concat, ih,
        List.rtakeWhile_concat]

namespace Site.At

variable {c rest body : Code} {earlier : List Member} {pre post : List Item} {s : Site}
  {id : RecordId} {ident : Name} {params : List Name} {blk : BlockId}

/-- A site behind an instruction that is no literal. -/
theorem skip {i : Item} (hi : i.rhs.isFn = false) (hheads : c.heads = i :: rest.heads)
    (hnested : rest.nested.Sublist c.nested) (hchildren : rest.children ⊆ c.children)
    (h : s.At [] rest pre post) : s.At earlier c (i :: pre) post where
  heads := by rw [hheads, h.heads, List.cons_append]
  rest := h.rest
  restNested := h.restNested.trans hnested
  body := hchildren h.body
  run := by
    rw [h.run, rtakeWhile_append_cons (p := fun j : Item => j.rhs.isFn) hi]
    rfl
  runBody := fun e he => .inr (hchildren ((h.runBody e he).resolve_left List.not_mem_nil))

/-- A site behind another literal. -/
theorem next (h : s.At (earlier ++ [⟨id, ident, params, blk, body, rest⟩]) rest pre post) :
    s.At earlier (.fn id ident params blk body rest) (⟨id, ident, .fn params blk⟩ :: pre) post where
  heads := by rw [Code.heads, h.heads, List.cons_append]
  rest := h.rest
  restNested := h.restNested.trans (List.sublist_append_right _ _)
  body := List.mem_cons_of_mem _ h.body
  run := by
    rw [h.run, List.map_append, List.append_assoc]
    rfl
  runBody := by
    intro e he
    rcases h.runBody e he with he | he
    · rcases List.mem_append.mp he with he | he
      · exact .inl he
      · rw [List.mem_singleton.mp he]
        exact .inr List.mem_cons_self
    · exact .inr (List.mem_cons_of_mem _ he)

/-- A literal at the beginning of a block. -/
theorem here : Site.At earlier (.fn id ident params blk body rest) [] rest.heads
    ⟨earlier, ⟨id, ident, params, blk, body, rest⟩⟩ where
  heads := rfl
  rest := rfl
  restNested := List.sublist_append_right _ _
  body := List.mem_cons_self
  run := by
    rw [List.append_nil, List.rtakeWhile_eq_self_iff.mpr]
    intro i hi
    obtain ⟨m, -, rfl⟩ := List.mem_map.mp hi
    rfl
  runBody := fun _ he => .inl he

end Site.At

namespace Code

variable {c : Code} {pre post : List Item}

/-- A literal among the items of a block is one of its sites. -/
theorem exists_site {i : Item} (hfn : i.rhs.isFn = true) (hi : c.heads = pre ++ i :: post)
    (earlier : List Member) :
    ∃ s ∈ c.ownSites earlier, s.member.item = i ∧ s.At earlier c pre post := by
  induction c generalizing earlier pre with
  | done => exact absurd hi (by simp [heads])
  | op id ident o rest ih =>
      cases pre with
      | nil =>
          rw [← (List.cons.inj hi).1] at hfn
          exact absurd hfn Bool.false_ne_true
      | cons j pre =>
          obtain ⟨hj, hrest⟩ := List.cons.inj hi
          obtain ⟨s, hs, hitem, hat⟩ := ih hrest []
          refine ⟨s, hs, hitem, hj ▸ hat.skip rfl rfl (List.Sublist.refl _) fun _ h => h⟩
  | branch id ident cond yesBlk noBlk yes no rest _ _ ih =>
      cases pre with
      | nil =>
          rw [← (List.cons.inj hi).1] at hfn
          exact absurd hfn Bool.false_ne_true
      | cons j pre =>
          obtain ⟨hj, hrest⟩ := List.cons.inj hi
          obtain ⟨s, hs, hitem, hat⟩ := ih hrest []
          refine ⟨s, hs, hitem, hj ▸ hat.skip rfl rfl (List.sublist_append_right _ _) fun x hx => ?_⟩
          exact List.mem_cons_of_mem _ (List.mem_cons_of_mem _ hx)
  | fn id ident params blk body rest _ ih =>
      cases pre with
      | nil =>
          obtain ⟨hj, hrest⟩ := List.cons.inj hi
          exact ⟨_, List.mem_cons_self, hj, hrest ▸ Site.At.here⟩
      | cons j pre =>
          obtain ⟨hj, hrest⟩ := List.cons.inj hi
          obtain ⟨s, hs, hitem, hat⟩ := ih hrest _
          exact ⟨s, List.mem_cons_of_mem _ hs, hitem, hj ▸ hat.next⟩

/-- A site of a block stands somewhere in it. -/
theorem exists_at {s : Site} {earlier : List Member} (hs : s ∈ c.ownSites earlier) :
    ∃ pre post, s.At earlier c pre post := by
  induction c generalizing earlier with
  | done => exact absurd hs List.not_mem_nil
  | op id ident o rest ih =>
      obtain ⟨pre, post, hat⟩ := ih hs
      exact ⟨_, _, hat.skip rfl rfl (List.Sublist.refl _) fun _ h => h⟩
  | branch id ident cond yesBlk noBlk yes no rest _ _ ih =>
      obtain ⟨pre, post, hat⟩ := ih hs
      refine ⟨_, _, hat.skip rfl rfl (List.sublist_append_right _ _) fun x hx => ?_⟩
      exact List.mem_cons_of_mem _ (List.mem_cons_of_mem _ hx)
  | fn id ident params blk body rest _ ih =>
      rcases List.mem_cons.mp hs with rfl | hs
      · exact ⟨_, _, Site.At.here⟩
      · obtain ⟨pre, post, hat⟩ := ih hs
        exact ⟨_, _, hat.next⟩

end Code

/-! ## Free names at a place -/

namespace Arena

/-- A name is free in a member of the run of literals that ends with `pre`. -/
def NeededInRun (a : Arena) (known : NameSet) (pre : List Item) (n : Name) : Prop :=
  ∃ i ∈ pre.rtakeWhile (·.rhs.isFn), ∃ params blk free,
    i.rhs = .fn params blk ∧ a.functionFreeNames known params blk = .ok free ∧ n ∈ free

namespace Unfolds

variable {a : Arena} {c : Code}

/-- The walk of a block of the code finds what is free in it. -/
theorem functionFreeNames_eq (h : a.Unfolds c) {x : BlockId × Code} (hx : x ∈ c.blocks entry)
    (known : NameSet) (params : List Name) :
    a.functionFreeNames known params x.1 = .ok (x.2.bodyFreeNames known params) :=
  Arena.functionFreeNames_eq (h.code_eq hx)

variable {x : BlockId × Code} {pre post : List Item} {s : Site}

/-- The walk of the body of a literal finds its free names. -/
theorem freeNames_site (h : a.Unfolds c) (hx : x ∈ c.blocks entry) (hs : s.At [] x.2 pre post)
    (known : NameSet) :
    a.functionFreeNames known s.member.params s.member.blk = .ok (s.member.freeNames known) :=
  h.functionFreeNames_eq (Code.child_mem_blocks hx hs.body) known s.member.params

/-- The free names of what follows an item are those of the code that stands there. -/
theorem freeNamesFrom_eq (h : a.Unfolds c) (hx : x ∈ c.blocks entry) {i : Item} {rest : Code}
    (hi : x.2.heads = pre ++ i :: rest.heads) (hrest : rest.nested.Sublist x.2.nested) :
    ∃ r next, a.record? i.id = some r ∧ r.next = some next ∧
      ∀ known, a.freeNamesFrom known next = .ok (rest.freeNames known) := by
  have hn := ((Code.nested_sublist_of_mem_blocks x hx).map (·.1)).nodup h.nodup
  obtain ⟨r, next, hr, hnext, hcode⟩ := (h.shows.of_mem_blocks hx).codeFrom_eq h.orderly hn hi hrest
  exact ⟨r, next, hr, hnext, fun _ => Arena.freeNamesFrom_eq hcode⟩

/-- The walk from behind a literal finds what is free there. -/
theorem freeNamesFrom_site (h : a.Unfolds c) (hx : x ∈ c.blocks entry)
    (hs : s.At [] x.2 pre post) :
    ∃ r next, a.record? s.member.id = some r ∧ r.next = some next ∧
      ∀ known, a.freeNamesFrom known next = .ok (s.member.rest.freeNames known) :=
  h.freeNamesFrom_eq hx (hs.rest ▸ hs.heads) hs.restNested

/-- A name is needed in the run before a literal if an earlier member of the run needs it. -/
theorem neededInRun_site (h : a.Unfolds c) (hx : x ∈ c.blocks entry) (hs : s.At [] x.2 pre post)
    (known : NameSet) (n : Name) :
    a.NeededInRun known pre n ↔ ∃ e ∈ s.earlier, n ∈ e.freeNames known := by
  have hrun : s.earlier.map (·.item) = pre.rtakeWhile (·.rhs.isFn) := hs.run
  have hfree : ∀ e ∈ s.earlier,
      a.functionFreeNames known e.params e.blk = .ok (e.freeNames known) := by
    intro e he
    have hbody := (hs.runBody e he).resolve_left List.not_mem_nil
    exact h.functionFreeNames_eq (Code.child_mem_blocks hx hbody) known e.params
  rw [NeededInRun, ← hrun]
  constructor
  · rintro ⟨i, hi, params, blk, free, hrhs, hok, hmem⟩
    obtain ⟨e, he, rfl⟩ := List.mem_map.mp hi
    obtain ⟨rfl, rfl⟩ := Rhs.fn.inj hrhs
    rw [hfree e he] at hok
    exact ⟨e, he, Except.ok.inj hok ▸ hmem⟩
  · rintro ⟨e, he, hmem⟩
    exact ⟨_, List.mem_map_of_mem he, _, _, _, rfl, hfree e he, hmem⟩

end Unfolds

end Arena

end ClosureConversion
