import ClosureConversion.Proofs.Occurrences

/-!
# How free names depend on the known functions

A known function needs no value where it is called. That is the only way in which the known functions
enter: a reading counts under one set and not under another exactly if it is the callee of a call and
in the second set alone (`Reading.counts_eq_false_iff`).

* `Arena.Relieved`: with more known functions no name becomes free, and the free names that go are the
  newly known functions that are called and not read otherwise.
* `Arena.CalledFree`: the names that are read as callees where they are not bound. Two sets of known
  functions that agree on these give the same free names in the same order.

`freeNamesFrom_relieved` states both for what stands from an instruction on and for functions. The first
part says nothing about the order: a function that is called first and read later moves back when it
becomes known.
-/

namespace ClosureConversion

/-! ## Readings -/

namespace Reading

variable {known known' : NameSet} {rs : List Reading} {r : Reading} {n : Name}

/-- A reading that no longer counts is the callee of a call and newly known. -/
theorem counts_eq_false_iff (h : r.counts known = true) :
    r.counts known' = false ↔ r.call = true ∧ r.name ∈ known' ∧ r.name ∉ known := by
  rw [counts_iff] at h
  rw [← Bool.not_eq_true, counts_iff, not_not]
  tauto

/-- A name that is needed is needed no longer exactly if it is newly known and only called. -/
theorem not_mem_needed_iff (hn : n ∈ needed known rs) :
    n ∉ needed known' rs ↔
      n ∈ known' ∧ n ∉ known ∧ ∀ r ∈ rs, r.name = n → r.call = true := by
  obtain ⟨r, hr, hcounts, rfl⟩ := mem_needed.mp hn
  constructor
  · intro hgone
    have hnone : ∀ s ∈ rs, s.name = r.name → s.counts known' = false := by
      intro s hs hname
      rw [Bool.eq_false_iff]
      exact fun hc => hgone (mem_needed.mpr ⟨s, hs, hc, hname⟩)
    obtain ⟨-, hin, hout⟩ := (counts_eq_false_iff hcounts).mp (hnone r hr rfl)
    refine ⟨hin, hout, fun s hs hname => ?_⟩
    by_contra hcall
    have hread : s.counts known' = true := counts_iff.mpr fun h => hcall h.1
    rw [hnone s hs hname] at hread
    cases hread
  · rintro ⟨hin, -, hcalls⟩ hmem
    obtain ⟨s, hs, hc, hname⟩ := mem_needed.mp hmem
    exact counts_iff.mp hc ⟨hcalls s hs hname, hname ▸ hin⟩

/-- Sets that agree on the callees need the same names in the same order. Names that are left out
afterwards need no agreement. -/
theorem filter_needed_congr {bound : List Name}
    (h : ∀ r ∈ rs, r.call = true → r.name ∉ bound → (r.name ∈ known ↔ r.name ∈ known')) :
    (needed known rs).filter (· ∉ bound) = (needed known' rs).filter (· ∉ bound) := by
  simp only [needed, List.filter_map, List.filter_filter]
  refine congrArg (List.map name) (List.filter_congr fun r hr => ?_)
  rw [Bool.eq_iff_iff, Bool.and_eq_true, Bool.and_eq_true]
  refine and_congr_right fun hbound => ?_
  have hout : r.name ∉ bound := of_decide_eq_true hbound
  rw [counts_iff, counts_iff]
  exact not_congr (and_congr_right fun hcall => h r hr hcall hout)

end Reading

/-- Leaving names out of a list and listing each once may be done in either order. -/
theorem NameSet.filter_toList_ofList (names : List Name) (p : Name → Bool) :
    (ofList names).toList.filter p = (ofList (names.filter p)).toList := by
  induction names using List.reverseRecOn with
  | nil => rfl
  | append_singleton names n ih =>
      rw [List.filter_append, toList_ofList_concat]
      cases hp : p n with
      | false =>
          rw [List.filter_singleton, hp, cond_false, List.append_nil, ← ih]
          split
          next => rfl
          next => rw [List.filter_append, List.filter_singleton, hp, cond_false, List.append_nil]
      | true =>
          have hmem : n ∈ names.filter p ↔ n ∈ names := by
            rw [List.mem_filter, and_iff_left hp]
          rw [List.filter_singleton, hp, cond_true, toList_ofList_concat]
          by_cases hn : n ∈ names
          · rw [if_pos hn, if_pos (hmem.mpr hn), ih]
          · rw [if_neg hn, if_neg (hn ∘ hmem.mp), List.filter_append, ih, List.filter_singleton, hp,
              cond_true]

/-! ## Code -/

namespace Code

variable {known known' : NameSet} {params : List Name} {c : Code} {n : Name}

/-- The free names of a body are the needed ones among its open reads, without the parameters. -/
theorem toList_bodyFreeNames (known : NameSet) (params : List Name) (c : Code) :
    (c.bodyFreeNames known params).toList =
      (NameSet.ofList ((Reading.needed known c.openReads).filter (· ∉ params))).toList := by
  rw [bodyFreeNames, NameSet.toList_eraseAll, freeNames_eq_ofList, NameSet.filter_toList_ofList]

/-- A free name of a body goes exactly if it is newly known and only called. -/
theorem not_mem_bodyFreeNames_iff (hn : n ∈ c.bodyFreeNames known params) :
    n ∉ c.bodyFreeNames known' params ↔
      n ∈ known' ∧ n ∉ known ∧ ∀ r ∈ c.openReads, r.name = n → r.call = true := by
  rw [bodyFreeNames, freeNames_eq_ofList, NameSet.mem_eraseAll, NameSet.mem_ofList] at hn
  obtain ⟨hneeded, hparam⟩ := hn
  rw [← Reading.not_mem_needed_iff hneeded, bodyFreeNames, freeNames_eq_ofList,
    NameSet.mem_eraseAll, NameSet.mem_ofList, and_iff_left hparam]

/-- Sets of known functions that agree on the callees read in a body, its parameters apart, give the
same free names in the same order. -/
theorem bodyFreeNames_congr_calls (h : ∀ r ∈ c.openReads, r.call = true → r.name ∉ params →
    (r.name ∈ known ↔ r.name ∈ known')) :
    c.bodyFreeNames known params = c.bodyFreeNames known' params := by
  apply NameSet.eq_of_toList_eq
  rw [toList_bodyFreeNames, toList_bodyFreeNames, Reading.filter_needed_congr h]

end Code

/-! ## Arenas -/

namespace Arena

/-- What becomes of the free names of some instructions when `known'` are known and not only `known`.
None is new, and those that go are the newly known functions that are read as callees alone. -/
structure Relieved (a : Arena) (known known' : NameSet) (items : List Item) (free free' : NameSet) :
    Prop where
  subset : ∀ n ∈ free', n ∈ free
  gone : ∀ n ∈ free, n ∉ free' ↔
    n ∈ known' ∧ n ∉ known ∧ ∀ pos call, a.FreeAt items ⟨pos, n, call⟩ → call = true

/-- A name is read as the callee of a call at a position where it is not bound. -/
def CalledFree (a : Arena) (items : List Item) (n : Name) : Prop := ∃ pos, a.FreeAt items ⟨pos, n, true⟩

variable {a : Arena} {c : Code} {known known' : NameSet} (params : List Name)

/-- More known functions relieve a body of what is called only. -/
theorem relieved_bodyFreeNames (hc : ∀ y ∈ c.children, a.Shows y.1 y.2)
    (hk : ∀ n ∈ known, n ∈ known') :
    a.Relieved known known' c.heads (c.bodyFreeNames known params) (c.bodyFreeNames known' params) where
  subset n hn := by
    rw [Code.mem_bodyFreeNames] at hn ⊢
    exact ⟨hn.1.anti hk, hn.2⟩
  gone n hn := by
    rw [Code.not_mem_bodyFreeNames_iff hn]
    refine and_congr_right fun _ => and_congr_right fun _ => ?_
    constructor
    · exact fun h pos call hfree => h _ ((mem_openReads hc).mpr hfree) rfl
    · rintro h ⟨pos, m, call⟩ hr rfl
      exact h pos call ((mem_openReads hc).mp hr)

/-- Known functions that agree on free callees give the same free names. -/
theorem bodyFreeNames_congr_calledFree (hc : ∀ y ∈ c.children, a.Shows y.1 y.2)
    (h : ∀ n ∉ params, a.CalledFree c.heads n → (n ∈ known ↔ n ∈ known')) :
    c.bodyFreeNames known params = c.bodyFreeNames known' params := by
  refine Code.bodyFreeNames_congr_calls fun r hr hcall hout => h r.name hout ⟨r.pos, ?_⟩
  rw [← hcall]
  exact (mem_openReads hc).mp hr

end Arena

/-- **Dependence on the known functions.** Where the blocks that instructions lead to exist and lead to
no cycle, more known functions leave fewer free names: those go that are newly known and have no free
occurrence but as callees. Known functions that agree on the names with a free occurrence as a callee
give the same free names in the same order. Both hold from any instruction on, and for any function. -/
theorem freeNamesFrom_relieved (a : Arena) (known known' : NameSet) :
    (∀ start < a.records.size, a.Grounded (a.itemsFrom start) →
      ∃ free free', a.freeNamesFrom known start = .ok free ∧
        a.freeNamesFrom known' start = .ok free' ∧
        ((∀ n ∈ known, n ∈ known') → a.Relieved known known' (a.itemsFrom start) free free') ∧
        ((∀ n, a.CalledFree (a.itemsFrom start) n → (n ∈ known ↔ n ∈ known')) → free = free')) ∧
    ∀ params body, body < a.numBlocks → a.Grounded (a.items body) →
      ∃ free free', a.functionFreeNames known params body = .ok free ∧
        a.functionFreeNames known' params body = .ok free' ∧
        ((∀ n ∈ known, n ∈ known') → a.Relieved known known' (a.items body) free free') ∧
        ((∀ n ∉ params, a.CalledFree (a.items body) n → (n ∈ known ↔ n ∈ known')) →
          free = free') := by
  constructor
  · intro start hstart hg
    obtain ⟨c, hc, hitems, hshown⟩ := hg.exists_codeFrom hstart
    have hfree : ∀ k, a.freeNamesFrom k start = .ok (c.bodyFreeNames k []) :=
      fun _ => Arena.freeNamesFrom_eq hc
    rw [hitems]
    refine ⟨_, _, hfree known, hfree known', Arena.relieved_bodyFreeNames [] hshown, fun h => ?_⟩
    exact Arena.bodyFreeNames_congr_calledFree [] hshown fun n _ => h n
  · intro params body hbody hg
    obtain ⟨c, hc, hitems, hshown⟩ := hg.exists_code hbody
    have hfree : ∀ k, a.functionFreeNames k params body = .ok (c.bodyFreeNames k params) :=
      fun _ => Arena.functionFreeNames_eq hc
    rw [hitems]
    exact ⟨_, _, hfree known, hfree known', Arena.relieved_bodyFreeNames params hshown,
      Arena.bodyFreeNames_congr_calledFree params hshown⟩

/-- Everything that the entry of a lowered block leads to is grounded. -/
theorem Arena.grounded_ofBlock (t : Block) {blk : BlockId} {items : List Item}
    (hblk : (ofBlock t).Reaches blk) (hitems : items ⊆ (ofBlock t).items blk) :
    (ofBlock t).Grounded items :=
  have hshows := (ofBlock_unfolds t).shows
  .of_reaches hshows.guarded (fun _ => hshows.no_cycle) hblk hitems

/-- From the second literal on, the first one is called and not read otherwise: it goes when it is known.
In the body of the second literal nothing else is called, so it does not matter whether the parameter
and the name from outside are known. -/
theorem freeNamesFrom_relieved_sample :
    (∃ free free', (Arena.ofBlock Block.sample).freeNamesFrom ∅ 11 = .ok free ∧
      (Arena.ofBlock Block.sample).freeNamesFrom (.ofList ["f"]) 11 = .ok free' ∧
      (Arena.ofBlock Block.sample).Relieved ∅ (.ofList ["f"])
        ((Arena.ofBlock Block.sample).itemsFrom 11) free free' ∧
      free.toList = ["f", "a"] ∧ free'.toList = ["a"]) ∧
    ∃ free, (Arena.ofBlock Block.sample).functionFreeNames ∅ ["z"] 2 = .ok free ∧
      (Arena.ofBlock Block.sample).functionFreeNames (.ofList ["a", "z"]) ["z"] 2 = .ok free ∧
      free.toList = ["f", "a"] := by
  have hblock : (Arena.ofBlock Block.sample).Reaches 2 :=
    .step (i := ⟨11, "g", .fn ["z"] 2⟩) .entry (by decide) (by decide)
  constructor
  · obtain ⟨free, free', hfree, hfree', hrelieved, -⟩ :=
      (freeNamesFrom_relieved (Arena.ofBlock Block.sample) ∅ (.ofList ["f"])).1 11
        (by decide) (Arena.grounded_ofBlock _ .entry (by decide +kernel))
    have hvalue : ((Arena.ofBlock Block.sample).freeNamesFrom ∅ 11).map NameSet.toList =
        .ok ["f", "a"] := by decide
    have hvalue' : ((Arena.ofBlock Block.sample).freeNamesFrom (.ofList ["f"]) 11).map
        NameSet.toList = .ok ["a"] := by decide
    rw [hfree] at hvalue
    rw [hfree'] at hvalue'
    exact ⟨free, free', hfree, hfree', hrelieved fun n hn => absurd hn (NameSet.not_mem_empty n),
      Except.ok.inj hvalue, Except.ok.inj hvalue'⟩
  · have hbody := Arena.grounded_ofBlock Block.sample hblock (List.Subset.refl _)
    obtain ⟨c, hc, hitems, hshown⟩ := hbody.exists_code (by decide)
    obtain ⟨free, free', hfree, hfree', -, hsame⟩ :=
      (freeNamesFrom_relieved (Arena.ofBlock Block.sample) ∅ (.ofList ["a", "z"])).2 ["z"] 2
        (by decide) hbody
    have hcallees : ((Arena.ofBlock Block.sample).code 2).map
        (fun c => (c.openReads.filter (·.call)).map (·.name)) = .ok ["f"] := by decide
    rw [hc] at hcallees
    have hlist : (c.openReads.filter (·.call)).map (·.name) = ["f"] := Except.ok.inj hcallees
    have heq : free = free' := by
      apply hsame
      rintro n - ⟨pos, hcall⟩
      rw [hitems] at hcall
      have hmem : n ∈ (c.openReads.filter (·.call)).map (·.name) :=
        List.mem_map_of_mem (List.mem_filter.mpr ⟨(Arena.mem_openReads hshown).mpr hcall, rfl⟩)
      rw [hlist, List.mem_singleton] at hmem
      rw [hmem]
      decide
    have hvalue : ((Arena.ofBlock Block.sample).functionFreeNames ∅ ["z"] 2).map NameSet.toList =
        .ok ["f", "a"] := by decide
    rw [hfree] at hvalue
    exact ⟨free, hfree, heq ▸ hfree', Except.ok.inj hvalue⟩

/-- Where a function is called first and read later, the order of the free names depends on whether it
is known. -/
example : let c := ((Block.op "r" (.app "f" [] false) <| .op "t" (.tuple ["a", "f"]) .done).number 1 2)
    (c.freeNames ∅).toList = ["f", "a"] ∧ (c.freeNames (.ofList ["f"])).toList = ["a", "f"] := by
  decide

end ClosureConversion
