import ClosureConversion.Proofs.Scope
import ClosureConversion.Proofs.Walks

/-!
# Free names, without the walk

`Block.IsFree known n b` says by recursion over nested blocks that `n` is free in one, and
`Code.IsFree` says the same of code, whose numbers do not matter. The walk that collects
free names finds exactly these (`Code.mem_gather`), and what is free is read somewhere
(`Code.IsFree.mem_reads`).

Free names depend on the known functions through calls alone. Where every call of a literal stands
in its scope, only the literals visible around the code matter:

* fewer known functions, more free names (`Code.IsFree.of_known`);
* two sets of known functions that agree on the visible literals give the same free names, in the
  same order (`Code.freeNames_congr`).

These two facts are all that the classification rests on.
-/

namespace ClosureConversion

namespace Operation

variable {o : Operation} {n : Name} {known known' : NameSet}

/-- What an operation needs is one of its operands. -/
theorem mem_operands_of_mem_needs (h : n ∈ o.needs known) : n ∈ o.operands := by
  cases o with
  | app callee args indirect =>
      simp only [needs] at h
      split at h
      · exact List.mem_cons_of_mem _ h
      · exact h
  | _ => exact h

/-- What is needed under one set of known functions and not under another is the callee. -/
theorem mem_needs_or (known' : NameSet) (h : n ∈ o.needs known) :
    n ∈ o.needs known' ∨ (o.callee? = some n ∧ n ∉ known ∧ n ∈ known') := by
  cases o with
  | app callee args indirect =>
      simp only [needs] at h ⊢
      by_cases hk : callee ∈ known
      · rw [if_pos hk] at h
        left
        split
        · exact h
        · exact List.mem_cons_of_mem _ h
      · rw [if_neg hk] at h
        by_cases hk' : callee ∈ known'
        · rw [if_pos hk']
          rcases List.mem_cons.mp h with rfl | h
          · exact .inr ⟨rfl, hk, hk'⟩
          · exact .inl h
        · rw [if_neg hk']
          exact .inl h
  | _ => exact .inl h

/-- The needs outside `bound` are the same under sets that agree on a callee outside `bound`. -/
theorem filter_needs_congr {bound : List Name}
    (h : ∀ callee ∈ o.callee?, callee ∈ bound ∨ (callee ∈ known ↔ callee ∈ known')) :
    (o.needs known).filter (· ∉ bound) = (o.needs known').filter (· ∉ bound) := by
  cases o with
  | app callee args indirect =>
      simp only [needs]
      rcases h callee rfl with hb | hk
      · split <;> split <;> simp [hb]
      · by_cases hc : callee ∈ known
        · rw [if_pos hc, if_pos (hk.mp hc)]
        · rw [if_neg hc, if_neg fun hc' => hc (hk.mpr hc')]
  | _ => rfl

end Operation

/-- A name is free in a block: it is needed at some point where the block has not bound it. -/
def Block.IsFree (known : NameSet) (n : Name) : Block → Prop
  | .done => False
  | .op ident o rest => n ∈ o.needs known ∨ (n ≠ ident ∧ rest.IsFree known n)
  | .fn ident params body rest =>
    n ∉ ident :: rest.runNames ∧ ((n ∉ params ∧ body.IsFree known n) ∨ rest.IsFree known n)
  | .branch ident cond yes no rest =>
    n = cond ∨ yes.IsFree known n ∨ no.IsFree known n ∨ (n ≠ ident ∧ rest.IsFree known n)

namespace Code

variable {n : Name} {known known' : NameSet}

/-- A name is free in code: it is free in the nested block that the code stands for. -/
def IsFree (known : NameSet) (n : Name) (c : Code) : Prop := c.erase.IsFree known n

/-- A name is free from a flat instruction on. -/
theorem isFree_op {id : RecordId} {ident : Name} {o : Operation} {rest : Code} :
    (op id ident o rest).IsFree known n ↔
      n ∈ o.needs known ∨ (n ≠ ident ∧ rest.IsFree known n) := Iff.rfl

/-- A name is free from a literal on: the names of its run are in scope in the whole run. -/
theorem isFree_fn {id : RecordId} {ident : Name} {params : List Name} {blk : BlockId}
    {body rest : Code} : (fn id ident params blk body rest).IsFree known n ↔
      n ∉ ident :: rest.runNames ∧
        ((n ∉ params ∧ body.IsFree known n) ∨ rest.IsFree known n) := by
  rw [← rest.runNames_erase]
  exact Iff.rfl

/-- A name is free from a conditional on. -/
theorem isFree_branch {id : RecordId} {ident cond : Name} {yesBlk noBlk : BlockId}
    {yes no rest : Code} : (branch id ident cond yesBlk noBlk yes no rest).IsFree known n ↔
      n = cond ∨ yes.IsFree known n ∨ no.IsFree known n ∨ (n ≠ ident ∧ rest.IsFree known n) :=
  Iff.rfl

/-- The names of the run that code begins with are not free in it. -/
theorem IsFree.not_mem_runNames {c : Code} (h : c.IsFree known n) : n ∉ c.runNames := by
  cases c with
  | fn id ident params blk body rest => exact (isFree_fn.mp h).1
  | _ => exact List.not_mem_nil

/-- The walk finds the free names of the code that are not bound around it. Inside a run the names
of the run count as bound. -/
theorem mem_gather {c : Code} {bound : List Name} {inRun : Bool} {found : NameSet}
    (hrun : inRun = true → ∀ m ∈ c.runNames, m ∈ bound) :
    n ∈ c.gather known bound inRun found ↔ n ∈ found ∨ (n ∉ bound ∧ c.IsFree known n) := by
  induction c generalizing bound inRun found with
  | done => simp [gather, IsFree, erase, Block.IsFree]
  | op id ident o rest ih =>
      simp only [gather, isFree_op]
      rw [ih (by simp), NameSet.mem_addFree, List.mem_cons]
      tauto
  | branch id ident cond yesBlk noBlk yes no rest ihy ihn ih =>
      simp only [gather, isFree_branch]
      rw [ih (by simp), ihn (by simp), ihy (by simp), NameSet.mem_addFree, List.mem_singleton,
        List.mem_cons]
      tauto
  | fn id ident params blk body rest ihb ih =>
      simp only [gather, isFree_fn]
      have hscope : ∀ m, m ∈ (if inRun then bound else ident :: rest.runNames ++ bound) ↔
          m ∈ ident :: rest.runNames ∨ m ∈ bound := by
        intro m
        cases inRun with
        | true =>
            refine ⟨Or.inr, fun h => h.elim (fun h => ?_) fun h => h⟩
            exact hrun rfl m h
        | false => exact List.mem_append
      rw [ih (by intro _ m hm; rw [List.mem_cons, hscope]; simp [hm]), ihb (by simp)]
      simp only [List.mem_append, List.mem_cons, hscope]
      tauto

/-- The free names are the free ones. -/
theorem mem_freeNames {c : Code} : n ∈ c.freeNames known ↔ c.IsFree known n := by
  unfold freeNames
  rw [mem_gather (by simp)]
  simp

/-- What is free in a body is free in its code and no parameter. -/
theorem mem_bodyFreeNames {params : List Name} {body : Code} :
    n ∈ body.bodyFreeNames known params ↔ body.IsFree known n ∧ n ∉ params := by
  unfold bodyFreeNames
  rw [NameSet.mem_eraseAll, mem_freeNames]

/-! ## Free names are read -/

/-- What was found stays. -/
theorem mem_gatherReads_of_mem {c : Code} {found : NameSet} (h : n ∈ found) :
    n ∈ c.gatherReads found := by
  induction c generalizing found with
  | done => exact h
  | op id ident o rest ih => exact ih (NameSet.mem_insertAll.mpr (.inl h))
  | fn id ident params blk body rest ihb ih => exact ih (ihb h)
  | branch id ident cond yesBlk noBlk yes no rest ihy ihn ih =>
      exact ih (ihn (ihy (NameSet.mem_insert.mpr (.inl h))))

/-- A free name is found among the reads. -/
theorem IsFree.mem_gatherReads {c : Code} {found : NameSet} (h : c.IsFree known n) :
    n ∈ c.gatherReads found := by
  induction c generalizing found with
  | done => exact absurd h id
  | op id ident o rest ih =>
      simp only [gatherReads]
      rcases h with h | ⟨-, h⟩
      · have hr := Operation.mem_operands_of_mem_needs h
        exact mem_gatherReads_of_mem (NameSet.mem_insertAll.mpr (.inr hr))
      · exact ih h
  | fn id ident params blk body rest ihb ih =>
      simp only [gatherReads]
      rcases h with ⟨-, ⟨-, h⟩ | h⟩
      · exact mem_gatherReads_of_mem (ihb h)
      · exact ih h
  | branch id ident cond yesBlk noBlk yes no rest ihy ihn ih =>
      simp only [gatherReads]
      rcases h with rfl | h | h | ⟨-, h⟩
      · have hc : n ∈ found.insert n := NameSet.mem_insert.mpr (.inr rfl)
        exact mem_gatherReads_of_mem (mem_gatherReads_of_mem (mem_gatherReads_of_mem hc))
      · exact mem_gatherReads_of_mem (mem_gatherReads_of_mem (ihy h))
      · exact mem_gatherReads_of_mem (ihn h)
      · exact ih h

/-- A free name is read. -/
theorem IsFree.mem_reads {c : Code} (h : c.IsFree known n) : n ∈ c.reads := h.mem_gatherReads

/-! ## Dependence on the known functions -/

section Visible

variable {fns scope : List Name}

/-- The case of `IsFree.of_known` under names bound around the code, which makes the induction go
through. -/
theorem IsFree.of_known_aux {c : Code} {bound : List Name} (hfns : ∀ m ∈ known', m ∈ fns)
    (hc : c.erase.CallsInScope fns scope)
    (hs : ∀ m ∈ scope, m ∈ bound ∨ (m ∈ known' → m ∈ known)) (hn : n ∉ bound)
    (h : c.IsFree known n) : c.IsFree known' n := by
  induction c generalizing scope bound with
  | done => exact h
  | op id ident o rest ih =>
      obtain ⟨hcall, hrest⟩ := hc
      rcases h with h | ⟨hne, h⟩
      · rcases Operation.mem_needs_or known' h with h | ⟨hcallee, hk, hk'⟩
        · exact .inl h
        · rcases hs n (hcall n hcallee (hfns n hk')) with hb | hi
          · exact absurd hb hn
          · exact absurd (hi hk') hk
      · exact .inr ⟨hne, ih hrest hs hn h⟩
  | fn id ident params blk body rest ihb ih =>
      obtain ⟨hcb, hcr⟩ := hc
      obtain ⟨hrun, h⟩ := isFree_fn.mp h
      rw [runNames_erase] at hcb hcr
      -- a literal of the run is bound in the bodies of the run and behind it
      have hs' : ∀ m ∈ ident :: rest.runNames ++ scope,
          m ∈ ident :: rest.runNames ++ bound ∨ (m ∈ known' → m ∈ known) := by
        intro m hm
        rcases List.mem_append.mp hm with hm | hm
        · exact .inl (List.mem_append_left _ hm)
        · exact (hs m hm).imp_left (List.mem_append_right _)
      have hn' : n ∉ ident :: rest.runNames ++ bound := by
        intro hm
        rcases List.mem_append.mp hm with hm | hm
        · exact hrun hm
        · exact hn hm
      refine isFree_fn.mpr ⟨hrun, ?_⟩
      rcases h with ⟨hp, h⟩ | h
      · exact .inl ⟨hp, ihb hcb hs' hn' h⟩
      · exact .inr (ih hcr hs' hn' h)
  | branch id ident cond yesBlk noBlk yes no rest ihy ihn ih =>
      obtain ⟨hcy, hcn, hcr⟩ := hc
      rcases h with h | h | h | ⟨hne, h⟩
      · exact .inl h
      · exact .inr (.inl (ihy hcy hs hn h))
      · exact .inr (.inr (.inl (ihn hcn hs hn h)))
      · exact .inr (.inr (.inr ⟨hne, ih hcr hs hn h⟩))

/-- Fewer known functions, more free names: what is free under `known` is free under `known'`, if
every visible literal of `known'` is in `known`. -/
theorem IsFree.of_known {c : Code} (hfns : ∀ m ∈ known', m ∈ fns)
    (hc : c.erase.CallsInScope fns scope) (hs : ∀ m ∈ scope, m ∈ known' → m ∈ known)
    (h : c.IsFree known n) : c.IsFree known' n :=
  h.of_known_aux hfns hc (fun m hm => .inr (hs m hm)) List.not_mem_nil

/-- The same for any code, if every function known before is still known. -/
theorem IsFree.anti {c : Code} (hk : ∀ m ∈ known, m ∈ known') (h : c.IsFree known' n) :
    c.IsFree known n :=
  h.of_known (fun _ hm => NameSet.mem_toList.mpr hm)
    (Block.CallsInScope.of_subset fun _ hm => hm) fun m _ hm => hk m hm

/-- The walk finds the same names under known functions that agree on what is visible and not
bound. -/
theorem gather_congr {c : Code} {bound : List Name} {inRun : Bool} {found : NameSet}
    (hk : ∀ m ∈ known, m ∈ fns) (hk' : ∀ m ∈ known', m ∈ fns)
    (hc : c.erase.CallsInScope fns scope)
    (hs : ∀ m ∈ scope, m ∈ bound ∨ (m ∈ known ↔ m ∈ known'))
    (hrun : inRun = true → ∀ m ∈ c.runNames, m ∈ bound) :
    c.gather known bound inRun found = c.gather known' bound inRun found := by
  induction c generalizing scope bound inRun found with
  | done => rfl
  | op id ident o rest ih =>
      obtain ⟨hcall, hrest⟩ := hc
      have hneeds : (o.needs known).filter (· ∉ bound) = (o.needs known').filter (· ∉ bound) := by
        refine Operation.filter_needs_congr fun callee hcallee => ?_
        by_cases hf : callee ∈ fns
        · exact hs callee (hcall callee hcallee hf)
        · exact .inr ⟨fun h => absurd (hk _ h) hf, fun h => absurd (hk' _ h) hf⟩
      simp only [gather, NameSet.addFree, hneeds]
      refine ih hrest (fun m hm => ?_) (by simp)
      exact (hs m hm).imp_left (List.mem_cons_of_mem _)
  | fn id ident params blk body rest ihb ih =>
      obtain ⟨hcb, hcr⟩ := hc
      rw [runNames_erase] at hcb hcr
      simp only [gather]
      generalize hw : (if inRun then bound else ident :: rest.runNames ++ bound) = within
      have hscope : ∀ m, m ∈ ident :: rest.runNames ∨ m ∈ bound → m ∈ within := by
        intro m hm
        subst hw
        cases inRun with
        | true => exact hm.elim (fun hm => hrun rfl m hm) fun hm => hm
        | false => exact List.mem_append.mpr hm
      have hs' : ∀ m ∈ ident :: rest.runNames ++ scope, m ∈ within ∨ (m ∈ known ↔ m ∈ known') := by
        intro m hm
        rcases List.mem_append.mp hm with hm | hm
        · exact .inl (hscope m (.inl hm))
        · exact (hs m hm).imp_left fun h => hscope m (.inr h)
      rw [ihb hcb (fun m hm => (hs' m hm).imp_left (List.mem_append_right _)) (by simp)]
      refine ih hcr (fun m hm => (hs' m hm).imp_left (List.mem_cons_of_mem _)) ?_
      intro _ m hm
      exact List.mem_cons_of_mem _ (hscope m (.inl (List.mem_cons_of_mem _ hm)))
  | branch id ident cond yesBlk noBlk yes no rest ihy ihn ih =>
      obtain ⟨hcy, hcn, hcr⟩ := hc
      simp only [gather]
      rw [ihy hcy hs (by simp), ihn hcn hs (by simp)]
      exact ih hcr (fun m hm => (hs m hm).imp_left (List.mem_cons_of_mem _)) (by simp)

/-- Known functions that agree on the visible literals give the same free names in the same
order. -/
theorem freeNames_congr {c : Code} (hk : ∀ m ∈ known, m ∈ fns) (hk' : ∀ m ∈ known', m ∈ fns)
    (hc : c.erase.CallsInScope fns scope) (hs : ∀ m ∈ scope, m ∈ known ↔ m ∈ known') :
    c.freeNames known = c.freeNames known' :=
  gather_congr hk hk' hc (fun m hm => .inr (hs m hm)) (by simp)

/-- The free names of a body are the same under known functions that agree on what is visible. -/
theorem bodyFreeNames_congr {params : List Name} {body : Code} (hk : ∀ m ∈ known, m ∈ fns)
    (hk' : ∀ m ∈ known', m ∈ fns) (hc : body.erase.CallsInScope fns scope)
    (hs : ∀ m ∈ scope, m ∈ known ↔ m ∈ known') :
    body.bodyFreeNames known params = body.bodyFreeNames known' params := by
  unfold bodyFreeNames
  rw [freeNames_congr hk hk' hc hs]

end Visible

/-- A block whose reads are all bound has no free names but the ones bound around it. -/
theorem IsFree.mem_scope {c : Code} {scope : List Name} (hc : c.erase.NamesInScope scope)
    (h : c.IsFree known n) : n ∈ scope := by
  induction c generalizing scope with
  | done => exact absurd h id
  | op id ident o rest ih =>
      obtain ⟨hread, hrest⟩ := hc
      rcases h with h | ⟨hne, h⟩
      · exact hread n (Operation.mem_operands_of_mem_needs h)
      · exact (List.mem_cons.mp (ih hrest h)).resolve_left hne
  | fn id ident params blk body rest ihb ih =>
      obtain ⟨hcb, hcr⟩ := hc
      rw [runNames_erase] at hcb hcr
      obtain ⟨hrun, ⟨hp, h⟩ | h⟩ := isFree_fn.mp h
      · have hm := ihb hcb h
        rw [List.append_assoc] at hm
        exact (List.mem_append.mp ((List.mem_append.mp hm).resolve_left hp)).resolve_left hrun
      · exact (List.mem_append.mp (ih hcr h)).resolve_left hrun
  | branch id ident cond yesBlk noBlk yes no rest ihy ihn ih =>
      obtain ⟨hcond, hcy, hcn, hcr⟩ := hc
      rcases h with rfl | h | h | ⟨hne, h⟩
      · exact hcond
      · exact ihy hcy h
      · exact ihn hcn h
      · exact (List.mem_cons.mp (ih hcr h)).resolve_left hne

end Code

end ClosureConversion
