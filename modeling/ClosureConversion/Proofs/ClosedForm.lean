import ClosureConversion.Proofs.Classification

/-!
# The closed form of a classification

The exploration visits bodies several times, under assumptions that it may drop. None of that shows in
the result: given the known functions, every other table is what the arena alone says it is.

* `Arena.LiteralForm`: what is on record about one literal at its place.
* `Arena.ClosedForm`: the same for all literals and calls that the entry leads to, and nothing on
  record besides.
-/

namespace ClosureConversion

namespace Arena

/-- The record of one literal `f`, which stands behind the items `pre` in its block: `free` are its
free names, `behind` the free names of what follows it, `suffix` the names needed behind it. -/
structure LiteralForm (a : Arena) (c : Classification) (pre : List Item) (id : RecordId) (f : Name)
    (params : List Name) (body : BlockId) (free behind suffix : NameSet) : Prop where
  freeNames : a.functionFreeNames c.known params body = .ok free
  following : ∃ r next, a.record? id = some r ∧ r.next = some next ∧
    a.freeNamesFrom c.known next = .ok behind
  /-- A name that only an earlier member of the run needs is added at the end. -/
  added : f ∉ behind → a.NeededInRun c.known pre f → suffix.toList = behind.toList ++ [f]
  kept : f ∈ behind ∨ ¬a.NeededInRun c.known pre f → suffix = behind
  needed : c.suffixes.get? f = some suffix
  /-- A literal stays exactly if it is needed behind its place. A known one captures nothing. -/
  decision : c.decisions.get? id = some
    { name := f
      params := params
      body := body
      standing := if f ∈ c.known then .known else .closure
      action :=
        if f ∉ suffix then .remove
        else .makeClosure (if f ∈ c.known then [] else (free.erase f).toList) }
  /-- Captures are missing exactly for a known function that is removed. -/
  captures : c.captures? f =
    if f ∈ c.known then (if f ∈ suffix then some [] else none) else some (free.erase f).toList

/-- A classification is what the arena and the known functions say. -/
structure ClosedForm (a : Arena) (c : Classification) : Prop where
  known : ∀ f ∈ c.known, ∃ id params body, a.HasLiteral id f params body
  calls : ∀ id, c.closureCalls.contains id = true ↔
    ∃ blk ident callee args indirect, a.Reaches blk ∧
      ⟨id, ident, .op (.app callee args indirect)⟩ ∈ a.items blk ∧ callee ∉ c.known
  decided : ∀ id, c.decisions.contains id = true ↔ ∃ f params body, a.HasLiteral id f params body
  named : ∀ f, c.suffixes.contains f = true ↔ ∃ id params body, a.HasLiteral id f params body
  captured : ∀ f, (c.captures? f).isSome = true → ∃ id params body, a.HasLiteral id f params body
  literal : ∀ {blk pre post id f params body}, a.Reaches blk →
    a.items blk = pre ++ ⟨id, f, .fn params body⟩ :: post →
    ∃ free behind suffix, a.LiteralForm c pre id f params body free behind suffix

variable {a : Arena} {code : Code} {c : Classification}

/-- The suffix of a site, in terms of what the arena has behind it and before it. -/
theorem Unfolds.suffix_site (h : a.Unfolds code) {x : BlockId × Code} {pre post : List Item}
    {s : Site} (hx : x ∈ code.blocks entry) (hs : s.At [] x.2 pre post) (known : NameSet) :
    (s.member.ident ∉ s.member.rest.freeNames known → a.NeededInRun known pre s.member.ident →
      (s.suffix known).toList = (s.member.rest.freeNames known).toList ++ [s.member.ident]) ∧
    (s.member.ident ∈ s.member.rest.freeNames known ∨
        ¬a.NeededInRun known pre s.member.ident →
      s.suffix known = s.member.rest.freeNames known) := by
  have hany : s.earlier.any (fun e => s.member.ident ∈ e.freeNames known) = true ↔
      a.NeededInRun known pre s.member.ident := by
    rw [h.neededInRun_site hx hs, List.any_eq_true]
    simp only [decide_eq_true_eq]
  unfold Site.suffix Classification.suffixNames
  constructor
  · intro hb hn
    rw [if_pos (hany.mpr hn), NameSet.toList_insert, if_neg hb]
  · intro hcases
    split
    next hn =>
      have hb := hcases.resolve_right fun hno => hno (hany.mp hn)
      refine NameSet.eq_of_toList_eq ?_
      rw [NameSet.toList_insert, if_pos hb]
    next => rfl

/-- What is on record about a site, as its decision and its entry in the table of captures. -/
theorem Unfolds.literalForm (h : a.Unfolds code) {calls : List (RecordId × Name)}
    (hr : Records c.known [] code.sites calls .empty c) {x : BlockId × Code} {pre post : List Item}
    {s : Site} (hx : x ∈ code.blocks entry) (hs : s ∈ x.2.ownSites [])
    (hat : s.At [] x.2 pre post) :
    a.LiteralForm c pre s.member.id s.member.ident s.member.params s.member.blk
      (s.member.freeNames c.known) (s.member.rest.freeNames c.known) (s.suffix c.known) := by
  have hmem : s ∈ code.sites := (Code.mem_sites_iff entry).mpr ⟨x, hx, hs⟩
  obtain ⟨hadded, hkept⟩ := h.suffix_site hx hat c.known
  obtain ⟨r, next, hrec, hnext, hfrom⟩ := h.freeNamesFrom_site hx hat
  refine ⟨h.freeNames_site hx hat c.known, ⟨r, next, hrec, hnext, hfrom c.known⟩, hadded, hkept,
    hr.suffix s hmem, ?_, ?_⟩
  · rw [hr.decision s hmem, Site.decision, Site.action, Member.captures]
    simp only [ite_not]
  · rw [Classification.captures?, hr.entry s hmem, Site.entry?, Member.captures]
    by_cases hk : s.member.ident ∈ c.known <;> by_cases hsuf : s.member.ident ∈ s.suffix c.known
    · simp only [hk, hsuf, not_true, and_false, if_true, if_false]
    · simp only [hk, hsuf, not_false_eq_true, and_self, if_true, if_false]
    · simp only [hk, false_and, if_false]
    · simp only [hk, false_and, if_false]

/-- A classification that records all sites and calls of the code, and nothing else, is in closed
form. -/
theorem Unfolds.closedForm (h : a.Unfolds code)
    (hk : ∀ f ∈ c.known, ∃ m ∈ code.literals, m.ident = f)
    (hr : Records c.known [] code.sites code.calls .empty c) : a.ClosedForm c := by
  have hsite : ∀ s ∈ code.sites, a.HasLiteral s.member.id s.member.ident s.member.params
      s.member.blk := fun _ hs => h.shows.exists_item_site hs
  have hexists : ∀ {id f params body}, a.HasLiteral id f params body →
      ∃ s ∈ code.sites, s.member.id = id ∧ s.member.ident = f := by
    intro id f params body hl
    obtain ⟨m, hm, hitem⟩ := h.shows.hasLiteral_iff.mp hl
    obtain ⟨s, hs, rfl⟩ := List.mem_map.mp hm
    exact ⟨s, hs, congrArg Item.id hitem, congrArg Item.ident hitem⟩
  refine ⟨?_, ?_, ?_, ?_, ?_, ?_⟩
  · intro f hf
    obtain ⟨m, hm, rfl⟩ := hk f hf
    exact ⟨_, _, _, h.shows.hasLiteral_iff.mpr ⟨m, hm, rfl⟩⟩
  · intro id
    constructor
    · intro hid
      obtain ⟨callee, hcall, hout⟩ := hr.exists_call hid
      obtain ⟨blk, ident, args, indirect, hreach, hi⟩ := h.shows.exists_item_call hcall
      exact ⟨blk, ident, callee, args, indirect, hreach, hi, hout⟩
    · rintro ⟨blk, ident, callee, args, indirect, hreach, hi, hout⟩
      obtain ⟨d, hd⟩ := h.shows.reaches_iff.mp hreach
      rw [(h.shows _ hd).2] at hi
      exact (hr.calls id).mpr (.inr ⟨callee, (Code.mem_calls_iff entry).mpr
        ⟨_, hd, Code.mem_ownCalls.mpr ⟨ident, args, indirect, hi⟩⟩, hout⟩)
  · intro id
    rw [Table.contains_iff]
    constructor
    · rintro ⟨d, hd⟩
      obtain ⟨s, hs, rfl, -⟩ := hr.exists_site hd
      exact ⟨_, _, _, hsite s hs⟩
    · rintro ⟨f, params, body, hl⟩
      obtain ⟨s, hs, rfl, -⟩ := hexists hl
      exact ⟨_, hr.decision s hs⟩
  · intro f
    rw [Table.contains_iff]
    constructor
    · rintro ⟨names, hn⟩
      obtain ⟨s, hs, rfl⟩ := hr.exists_site_of_suffix hn
      exact ⟨_, _, _, hsite s hs⟩
    · rintro ⟨id, params, body, hl⟩
      obtain ⟨s, hs, -, rfl⟩ := hexists hl
      exact ⟨_, hr.suffix s hs⟩
  · intro f hf
    obtain ⟨captures, hc⟩ := Option.isSome_iff_exists.mp hf
    obtain ⟨m, hm, rfl⟩ := hr.exists_member hc
    exact ⟨_, _, _, h.shows.hasLiteral_iff.mpr ⟨m, hm, rfl⟩⟩
  · intro blk pre post id f params body hreach hitems
    obtain ⟨d, hd⟩ := h.shows.reaches_iff.mp hreach
    rw [(h.shows _ hd).2] at hitems
    obtain ⟨s, hs, hitem, hat⟩ := Code.exists_site rfl hitems []
    obtain ⟨rfl, rfl, hrhs⟩ := Item.mk.inj hitem
    obtain ⟨rfl, rfl⟩ := Rhs.fn.inj hrhs
    exact ⟨_, _, _, h.literalForm hr hd hs hat⟩

end Arena

/-- **Closed form.** With or without the optimisation, the result of a classification is in closed
form over its known functions. -/
theorem classify_closedForm (t : Block) (optimize : Bool) (hu : t.UniqueLiterals)
    (hc : t.CallsInScope t.literalNames []) :
    ∃ c, (Arena.ofBlock t).classify optimize = .ok c ∧ (Arena.ofBlock t).ClosedForm c := by
  have ha := Arena.ofBlock_unfolds t
  have hp := t.classify_progress hu hc optimize
  refine ⟨_, ha.classify_eq optimize,
    ha.closedForm (fun f hf => ?_) (t.classify_records hu hc optimize)⟩
  exact (hp.adds f hf).resolve_left (NameSet.not_mem_empty f)

/-- The closed form holds of a program with known functions and closures. -/
theorem classify_closedForm_sample :
    Block.sample.UniqueLiterals ∧
      Block.sample.CallsInScope Block.sample.literalNames [] ∧
      ∃ c, (Arena.ofBlock Block.sample).classify true = .ok c ∧
        (Arena.ofBlock Block.sample).ClosedForm c :=
  ⟨by decide, by decide, classify_closedForm Block.sample true (by decide) (by decide)⟩

end ClosureConversion
