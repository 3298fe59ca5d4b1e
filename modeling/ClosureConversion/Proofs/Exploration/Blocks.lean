import ClosureConversion.Proofs.Exploration.Runs

/-!
# Blocks and whole programs

Deciding the literals of a block turns their pending entries into full records
(`decideAll_records`), so exploring a block leaves nothing pending (`exploreBlock_explores`). By
recursion over code every exploration keeps its promise (`plan_spec`), and so does the classification
of whole code (`Code.classify_progress`).
-/

namespace ClosureConversion

namespace Classification

variable {optimize : Bool} {fns scope : List Name} {c c₁ c' : Classification} {known : NameSet}

/-! ## Deciding -/

/-- The state after deciding one literal whose entry is pending. -/
theorem decide_val {visible : List Name} {s : Site} (hs : s.InScope fns visible)
    (hc : ∀ n ∈ c.known, n ∈ fns) (hfns : ∀ n ∈ known, n ∈ fns)
    (hknown : ∀ n ∈ visible, n ∈ known ↔ n ∈ c.known)
    (hpending : c.closures.get? s.member.ident =
      if s.member.ident ∈ known then none else some (s.member.captures known)) :
    (decide s.earlier s.member c).val = { c with
      closures := if s.member.ident ∈ s.suffix known then
        c.closures.insert s.member.ident (s.member.captures known) else c.closures
      suffixes := c.suffixes.insert s.member.ident (s.suffix known)
      decisions := c.decisions.insert s.member.id (s.decision known) } := by
  have hsuffix : suffixNames c.known s.earlier s.member = s.suffix known :=
    hs.suffix_congr hc hfns fun n hn => (hknown n hn).symm
  have hcaptures : (c.closures.get? s.member.ident).getD [] = s.member.captures known := by
    rw [hpending]
    by_cases hk : s.member.ident ∈ known
    · rw [if_pos hk, Member.captures, if_pos hk]
      rfl
    · rw [if_neg hk]
      rfl
  have hstanding : (if s.member.ident ∈ c.known then Standing.known else .closure) =
      if s.member.ident ∈ known then .known else .closure := by
    simp only [hknown _ hs.ident]
  rw [decide_val_eq, hsuffix, hcaptures, hstanding]
  rfl

/-- Deciding one literal whose entry is pending. -/
theorem decide_records {visible : List Name} {s : Site} (hs : s.InScope fns visible)
    (hc : ∀ n ∈ c.known, n ∈ fns) (hfns : ∀ n ∈ known, n ∈ fns)
    (hknown : ∀ n ∈ visible, n ∈ known ↔ n ∈ c.known)
    (hpending : c.closures.get? s.member.ident =
      if s.member.ident ∈ known then none else some (s.member.captures known)) :
    Records known [] [s] [] c (decide s.earlier s.member c).val := by
  rw [decide_val hs hc hfns hknown hpending]
  refine ⟨by simp, by simp, ?_, ?_, ?_, ?_, ?_, ?_⟩
  · intro s' hs'
    rw [List.mem_singleton.mp hs']
    by_cases hin : s.member.ident ∈ s.suffix known
    · have hentry : s.entry? known = some (s.member.captures known) := if_neg fun h => h.2 hin
      simp only [if_pos hin, hentry, Table.get?_insert_self]
    · have hentry : s.entry? known =
          if s.member.ident ∈ known then none else some (s.member.captures known) := by
        simp only [Site.entry?, hin, not_false_eq_true, and_true]
      simp only [if_neg hin, hentry, hpending]
  · intro n hn
    have hne : n ≠ s.member.ident := (hn s.member (List.mem_map_of_mem List.mem_cons_self)).symm
    by_cases hin : s.member.ident ∈ s.suffix known
    · simp only [if_pos hin, Table.get?_insert_of_ne _ _ hne]
    · simp only [if_neg hin]
  · intro s' hs'
    rw [List.mem_singleton.mp hs']
    exact Table.get?_insert_self ..
  · intro n hn
    exact Table.get?_insert_of_ne _ _ (hn s List.mem_cons_self).symm
  · intro s' hs'
    rw [List.mem_singleton.mp hs']
    exact Table.get?_insert_self ..
  · intro id hid
    exact Table.get?_insert_of_ne _ _ (hid s List.mem_cons_self).symm

/-- Deciding a literal makes no function known. -/
theorem known_decide (earlier : List Member) (m : Member) (c : Classification) :
    (decide earlier m c).val.known = c.known := rfl

/-- Deciding literals makes no function known. -/
theorem known_decideAll (earlier : List Member) (code : Code) (c : Classification) :
    (decideAll earlier code c).val.known = c.known := by
  induction code generalizing earlier c with
  | done => rfl
  | op id ident o rest ih => exact ih [] c
  | branch id ident cond yesBlk noBlk yes no rest _ _ ih => exact ih [] c
  | fn id ident params blk body rest _ ih =>
      simp only [decideAll, Traced.val_bind]
      rw [ih, known_decide]

/-- Deciding the literals of a block whose entries are pending. -/
theorem decideAll_records {visible : List Name} {code : Code} {earlier : List Member}
    (hs : ∀ s ∈ code.ownSites earlier, s.InScope fns visible) (hsep : Separate code.members)
    (hc : ∀ n ∈ c.known, n ∈ fns) (hfns : ∀ n ∈ known, n ∈ fns)
    (hknown : ∀ n ∈ visible, n ∈ known ↔ n ∈ c.known)
    (hpending : ∀ m ∈ code.members, c.closures.get? m.ident =
      if m.ident ∈ known then none else some (m.captures known)) :
    Records known [] (code.ownSites earlier) [] c (decideAll earlier code c).val := by
  induction code generalizing earlier c with
  | done => exact Records.refl known c
  | op id ident o rest ih => exact ih hs hsep hc hknown hpending
  | branch id ident cond yesBlk noBlk yes no rest _ _ ih => exact ih hs hsep hc hknown hpending
  | fn id ident params blk body rest _ ih =>
      rw [Code.members_fn] at hsep hpending
      rw [Code.ownSites] at hs ⊢
      generalize hm : (⟨id, ident, params, blk, body, rest⟩ : Member) = m at hs hsep hpending ⊢
      have hfst : Records known [] [⟨earlier, m⟩] [] c (decide earlier m c).val :=
        decide_records (hs ⟨earlier, m⟩ List.mem_cons_self) hc hfns hknown
          (hpending m List.mem_cons_self)
      have hval : (decideAll earlier (.fn id ident params blk body rest) c).val =
          (decideAll (earlier ++ [m]) rest (decide earlier m c).val).val := by
        rw [← hm]
        rfl
      rw [hval]
      obtain ⟨-, hsep', happ⟩ := separate_append.mp (show Separate ([m] ++ rest.members) from hsep)
      refine hfst.trans (ih (fun s h => hs s (List.mem_cons_of_mem _ h)) hsep' hc hknown ?_) ?_
      · intro m' hm'
        rw [hfst.otherEntry m'.ident fun m₁ hm₁ => (happ m₁ hm₁ m' hm').1]
        exact hpending m' (List.mem_cons_of_mem _ hm')
      · intro m₁ hm₁ m₂ hm₂
        rw [recorded, List.nil_append, Code.map_member_ownSites] at hm₂
        exact happ m₁ hm₁ m₂ hm₂

end Classification

/-- Pending entries and the decisions on them make full records. -/
theorem Records.decide {known : NameSet} {own inner : List Site} {calls : List (RecordId × Name)}
    {c c₁ c' : Classification} (h : Records known (own.map (·.member)) inner calls c c₁)
    (h' : Records known [] own [] c₁ c') (ha : Apart (own.map (·.member)) (inner.map (·.member))) :
    Records known [] (own ++ inner) calls c c' := by
  have hapart : ∀ s ∈ inner, ∀ s' ∈ own,
      s'.member.ident ≠ s.member.ident ∧ s'.member.id ≠ s.member.id := fun s hs s' hs' =>
    ha _ (List.mem_map_of_mem hs') _ (List.mem_map_of_mem hs)
  have hinner : ∀ s ∈ inner, ∀ m ∈ recorded [] own, m.ident ≠ s.member.ident := by
    intro s hs m hm
    obtain ⟨s', hs', rfl⟩ := List.mem_map.mp hm
    exact (hapart s hs s' hs').1
  refine ⟨?_, by simp, ?_, ?_, ?_, ?_, ?_, ?_⟩
  · intro id
    rw [h'.calls, h.calls]
    simp
  · intro s hs
    rcases List.mem_append.mp hs with hs | hs
    · exact h'.entry s hs
    · rw [h'.otherEntry _ (hinner s hs)]
      exact h.entry s hs
  · intro n hn
    rw [recorded, List.nil_append, List.map_append] at hn
    rw [h'.otherEntry n fun m hm => hn m (List.mem_append_left _ hm), h.otherEntry n hn]
  · intro s hs
    rcases List.mem_append.mp hs with hs | hs
    · exact h'.suffix s hs
    · rw [h'.otherSuffix _ fun s' hs' => (hapart s hs s' hs').1]
      exact h.suffix s hs
  · intro n hn
    rw [h'.otherSuffix n fun s hs => hn s (List.mem_append_left _ hs),
      h.otherSuffix n fun s hs => hn s (List.mem_append_right _ hs)]
  · intro s hs
    rcases List.mem_append.mp hs with hs | hs
    · exact h'.decision s hs
    · rw [h'.otherDecision _ fun s' hs' => (hapart s hs s' hs').2]
      exact h.decision s hs
  · intro id hid
    rw [h'.otherDecision id fun s hs => hid s (List.mem_append_left _ hs),
      h.otherDecision id fun s hs => hid s (List.mem_append_right _ hs)]

/-! ## Steps in sequence -/

namespace Explores

variable {optimize : Bool} {fns scope scope' : List Name}
  {judged judged' pending pending' : List Member} {sites sites' : List Site}
  {calls calls' : List (RecordId × Name)} {e e' : Exploration}

/-- One step and then another, under the conditions of `Progress.trans`. -/
theorem bind (h : Explores optimize fns scope judged pending sites calls e)
    (h' : Explores optimize fns scope' judged' pending' sites' calls' e')
    (hdecl : ∀ m ∈ judged, m.ident ∈ fns)
    (ha : Apart (recorded pending sites) (recorded pending' sites'))
    (hr : ∀ m' ∈ judged', ∀ m ∈ recorded pending sites, m.ident ≠ m'.ident)
    (hj : ∀ m ∈ judged, ∀ m' ∈ judged', m'.ident ≠ m.ident)
    (hs : ∀ n ∈ scope, ∀ m' ∈ judged', m'.ident ≠ n)
    (hsub : ∀ n ∈ scope', n ∈ scope ∨ ∃ m ∈ judged, m.ident = n) :
    Explores optimize fns scope (judged ++ judged') (pending ++ pending') (sites ++ sites')
      (calls ++ calls') (fun c => e c >>= e') := by
  intro c hc hf
  have hfst := h c hc fun m hm => hf m (List.mem_append_left _ hm)
  have hc₁ := hfst.known_subset hc hdecl
  have hf₁ : (e c).val.Fresh judged' :=
    hfst.fresh hc₁ (fun m hm => hf m (List.mem_append_right _ hm))
      (fun m hm m' hm' => (hj m' hm' m hm).symm) hr
  exact hfst.trans (h' _ hc₁ hf₁) ha hj hs hsub

/-- Only what the lists hold matters, not their order. -/
theorem congr (h : Explores optimize fns scope judged pending sites calls e)
    (hj : ∀ m, m ∈ judged' ↔ m ∈ judged) (hp : ∀ m, m ∈ pending' ↔ m ∈ pending)
    (hs : ∀ s, s ∈ sites' ↔ s ∈ sites) (hc : ∀ x, x ∈ calls' ↔ x ∈ calls) :
    Explores optimize fns scope judged' pending' sites' calls' e := fun c hk hf =>
  (h c hk fun m hm => hf m ((hj m).mpr hm)).congr hj hp hs hc

/-- A step that only puts calls on record. -/
theorem recordCalls {calls : List (RecordId × Name)} {c : Classification}
    {marked : Table RecordId Unit}
    (h : ∀ known : NameSet, (∀ n ∈ known, n ∈ fns) → (∀ n ∈ scope, n ∈ known ↔ n ∈ c.known) →
      ∀ id, marked.contains id = true ↔
        c.closureCalls.contains id = true ∨ ∃ callee, (id, callee) ∈ calls ∧ callee ∉ known) :
    Progress optimize fns scope [] [] [] calls c { c with closureCalls := marked } := by
  refine ⟨fun _ h => h, fun _ h => .inl h, by simp, ?_, by simp⟩
  intro known hfns hscope _
  exact ⟨h known hfns hscope, by simp, by simp, fun _ _ => rfl, by simp, fun _ _ => rfl, by simp,
    fun _ _ => rfl⟩

/-- A flat instruction. A call is put on record as it has to be under every later set of known
functions, because its callee is visible if it is a literal at all. -/
theorem visit {id : RecordId} {ident : Name} {o : Operation}
    (hcall : ∀ callee ∈ o.callee?, callee ∈ fns → callee ∈ scope) :
    Explores optimize fns scope [] [] [] (o.callee?.toList.map (id, ·))
      (fun c => c.visit id ident o) := by
  intro c hc _
  cases ho : o.callee? with
  | none =>
      have hval : (c.visit id ident o).val = c := by
        cases o with
        | app callee args indirect => simp only [Operation.callee?, reduceCtorEq] at ho
        | _ => rfl
      rw [hval]
      exact Progress.refl ..
  | some callee =>
      rw [ho] at hcall
      have hstand : ∀ known : NameSet, (∀ n ∈ known, n ∈ fns) →
          (∀ n ∈ scope, n ∈ known ↔ n ∈ c.known) → (callee ∈ known ↔ callee ∈ c.known) := by
        intro known hfns hscope
        by_cases hf : callee ∈ fns
        · exact hscope callee (hcall callee rfl hf)
        · exact ⟨fun h => absurd (hfns _ h) hf, fun h => absurd (hc _ h) hf⟩
      have hval : (c.visit id ident o).val =
          if callee ∈ c.known then c else { c with closureCalls := c.closureCalls.insert id () } := by
        obtain ⟨args, indirect, rfl⟩ := Operation.callee?_eq_some ho
        simp only [Classification.visit]
        split <;> rfl
      rw [hval]
      by_cases hk : callee ∈ c.known
      · rw [if_pos hk]
        refine recordCalls fun known hfns hscope id' => ?_
        have hn : callee ∈ known := (hstand known hfns hscope).mpr hk
        simp [hn]
      · rw [if_neg hk]
        refine recordCalls fun known hfns hscope id' => ?_
        have hn : callee ∉ known := fun h => hk ((hstand known hfns hscope).mp h)
        simp [Table.contains_insert, hn, or_comm]

end Explores

/-! ## Plans -/

/-- What is given for code that is explored where the literals of `scope` are visible. -/
structure Code.Placed (fns scope : List Name) (code : Code) : Prop where
  calls : code.erase.CallsInScope fns scope
  separate : Separate code.literals
  hidden : ∀ m ∈ code.literals, m.ident ∉ scope
  declared : ∀ m ∈ code.literals, m.ident ∈ fns

/-- A plan carries out what the code asks for, where the literals of `inner`, the first run included,
are visible. -/
structure PlanSpec (optimize : Bool) (fns inner : List Name) (code : Code) (p : Plan) : Prop where
  run : p.run.map (·.1) = code.run
  bodies : ∀ x ∈ p.run,
    Explores optimize fns inner x.nested [] x.1.body.sites x.1.body.calls x.2
  after : Explores optimize fns inner code.afterRun.literals code.afterRun.members
    code.afterRun.innerSites code.afterRun.calls p.after

/-- Members with their nested literals are apart from one another if all these literals differ. -/
theorem Separate.pairwise {ms : List Member}
    (h : Separate (ms ++ ms.flatMap (·.body.literals))) :
    (∀ m ∈ ms, Apart [m] m.body.literals) ∧
      ms.Pairwise fun m m' => Apart (m :: m.body.literals) (m' :: m'.body.literals) := by
  induction ms with
  | nil => exact ⟨by simp, List.Pairwise.nil⟩
  | cons m rest ih =>
      have hperm : (m :: rest ++ (m :: rest).flatMap (·.body.literals)).Perm
          ((m :: m.body.literals) ++ (rest ++ rest.flatMap (·.body.literals))) := by
        rw [List.flatMap_cons, List.cons_append, List.cons_append]
        exact (List.perm_append_comm_assoc ..).cons m
      obtain ⟨hm, hrest, happ⟩ := separate_append.mp (h.of_perm hperm)
      obtain ⟨hown, hpair⟩ := ih hrest
      refine ⟨?_, List.pairwise_cons.mpr ⟨?_, hpair⟩⟩
      · intro m' hm'
        rcases List.mem_cons.mp hm' with rfl | hm'
        · exact (separate_append.mp (show Separate ([m'] ++ m'.body.literals) from hm)).2.2
        · exact hown m' hm'
      · intro m' hm' a ha b hb
        refine happ a ha b (List.mem_append.mpr ?_)
        rcases List.mem_cons.mp hb with rfl | hb
        · exact .inl hm'
        · exact .inr (List.mem_flatMap.mpr ⟨m', hm', hb⟩)

namespace Code

variable {optimize : Bool} {fns scope : List Name} {code : Code}

/-- The bodies of a run are called in the scope that the run makes. -/
theorem callsInScope_of_mem_run (h : code.erase.CallsInScope fns scope) {m : Member}
    (hm : m ∈ code.run) : m.body.erase.CallsInScope fns (code.runNames ++ scope) := by
  induction code generalizing scope with
  | fn id ident params blk body rest _ ih =>
      obtain ⟨hb, hr⟩ := h
      rw [runNames_erase] at hb hr
      rcases List.mem_cons.mp hm with rfl | hm
      · exact hb
      · refine (ih hr hm).mono fun n hn => ?_
        rcases List.mem_append.mp hn with hn | hn
        · exact List.mem_append_left _ (List.mem_cons_of_mem _ hn)
        · exact hn
  | _ => exact absurd hm List.not_mem_nil

/-- Code that is placed gives what is needed for its first run. -/
theorem Placed.runSpec (hp : code.Placed fns scope) {p : Plan}
    (h : PlanSpec optimize fns (code.runNames ++ scope) code p) :
    RunSpec optimize fns (code.runNames ++ scope) p.run := by
  have hrun : ∀ x ∈ p.run, x.1 ∈ code.run := fun x hx => h.run ▸ List.mem_map_of_mem hx
  have hperm := code.literals_perm
  obtain ⟨-, -, happ⟩ := separate_append.mp (hp.separate.of_perm hperm)
  have hsep : Separate (code.run ++ code.run.flatMap (·.body.literals)) := by
    have := hp.separate.of_perm hperm
    rw [← List.append_assoc] at this
    exact (separate_append.mp this).1
  obtain ⟨hown, hpair⟩ := hsep.pairwise
  have hlit : ∀ x ∈ p.run, ∀ m ∈ x.nested, m ∈ code.literals := by
    intro x hx m hm
    refine hperm.mem_iff.mpr (List.mem_append_right _ (List.mem_append_left _ ?_))
    exact List.mem_flatMap.mpr ⟨x.1, hrun x hx, hm⟩
  refine ⟨h.bodies, ?_, ?_, ?_, ?_, ?_, ?_, ?_⟩
  · exact fun x hx => callsInScope_of_mem_run hp.calls (hrun x hx)
  · intro x hx
    rw [← map_ident_run]
    exact List.mem_append_left _ (List.mem_map_of_mem (hrun x hx))
  · intro x hx m hm hn
    rcases List.mem_append.mp hn with hn | hn
    · rw [← map_ident_run] at hn
      obtain ⟨m', hm', hi⟩ := List.mem_map.mp hn
      refine (happ m' hm' m (List.mem_append_left _ ?_)).1 hi
      exact List.mem_flatMap.mpr ⟨x.1, hrun x hx, hm⟩
    · exact hp.hidden m (hlit x hx m hm) hn
  · exact fun x hx => hown x.1 (hrun x hx)
  · rw [← h.run, List.pairwise_map] at hpair
    exact hpair
  · exact fun x hx =>
      hp.declared _ (members_subset_literals (run_subset_members (hrun x hx)))
  · exact fun x hx m hm => hp.declared m (hlit x hx m hm)

/-- Exploring code without deciding its literals. -/
theorem explore_explores (hp : code.Placed fns scope) {p : Plan}
    (h : PlanSpec optimize fns (code.runNames ++ scope) code p) :
    Explores optimize fns scope code.literals code.members code.innerSites code.calls
      (p.explore optimize) := by
  have hrun := hp.runSpec h
  have hfst : Explores optimize fns scope _ _ _ _ _ :=
    Classification.classifyRun_explores hrun ?_ ?_
  · have hnested : p.run.flatMap (·.nested) = code.run.flatMap (·.body.literals) := by
      rw [← h.run, List.flatMap_map]
      rfl
    have hsites : p.run.flatMap (·.1.body.sites) = code.run.flatMap (·.body.sites) := by
      rw [← h.run, List.flatMap_map]
    have hcalls : p.run.flatMap (·.1.body.calls) = code.run.flatMap (·.body.calls) := by
      rw [← h.run, List.flatMap_map]
    rw [h.run, hnested, hsites, hcalls] at hfst
    have hperm := code.literals_perm
    rw [← List.append_assoc] at hperm
    obtain ⟨-, -, happ⟩ := separate_append.mp (hp.separate.of_perm hperm)
    have hrec : ∀ m ∈ recorded code.run (code.run.flatMap (·.body.sites)),
        m ∈ code.run ++ code.run.flatMap (·.body.literals) := by
      intro m hm
      rw [recorded, List.map_flatMap] at hm
      exact hm
    have hrec' : ∀ m ∈ recorded code.afterRun.members code.afterRun.innerSites,
        m ∈ code.afterRun.literals := by
      intro m hm
      rw [literals_eq]
      exact hm
    have hboth := hfst.bind h.after ?_ ?_ ?_ ?_ ?_ ?_
    · rw [members_eq, innerSites_eq, calls_eq]
      exact hboth.congr (fun m => hperm.mem_iff) (fun _ => Iff.rfl) (fun _ => Iff.rfl)
        fun _ => Iff.rfl
    · exact fun m hm => hp.declared m (hperm.mem_iff.mpr (List.mem_append_left _ hm))
    · exact fun m hm m' hm' => happ m (hrec m hm) m' (hrec' m' hm')
    · exact fun m' hm' m hm => (happ m (hrec m hm) m' hm').1
    · exact fun m hm m' hm' => (happ m hm m' hm').1.symm
    · rintro n hn m' hm' rfl
      exact hp.hidden m' (hperm.mem_iff.mpr (List.mem_append_right _ hm')) hn
    · intro n hn
      rcases List.mem_append.mp hn with hn | hn
      · rw [← map_ident_run] at hn
        obtain ⟨m, hm, rfl⟩ := List.mem_map.mp hn
        exact .inr ⟨m, List.mem_append_left _ hm, rfl⟩
      · exact .inl hn
  · intro n hn
    rcases List.mem_append.mp hn with hn | hn
    · rw [← map_ident_run, ← h.run, List.map_map] at hn
      obtain ⟨x, hx, rfl⟩ := List.mem_map.mp hn
      exact .inr ⟨x, hx, rfl⟩
    · exact .inl hn
  · exact fun n hn => List.mem_append_right _ hn

/-- Exploring a block and deciding its literals. -/
theorem exploreBlock_explores (hp : code.Placed fns scope) {p : Plan}
    (h : PlanSpec optimize fns (code.runNames ++ scope) code p) :
    Explores optimize fns scope code.literals [] code.sites code.calls
      (p.exploreBlock optimize code) := by
  intro c hc hf
  have hopen := explore_explores hp h c hc hf
  generalize hc₁ : (p.explore optimize c).val = c₁ at hopen
  have hval : (p.exploreBlock optimize code c).val = (Classification.decideAll [] code c₁).val := by
    rw [← hc₁]
    rfl
  have hknown := Classification.known_decideAll [] code c₁
  rw [hval]
  generalize hc₂ : (Classification.decideAll [] code c₁).val = c₂ at hknown
  refine ⟨?_, ?_, ?_, ?_, ?_⟩
  · rw [hknown]
    exact hopen.keeps
  · rw [hknown]
    exact hopen.adds
  · rw [hknown]
    exact hopen.sound
  · intro known hfns hscope hjudged
    rw [hknown] at hscope hjudged
    have hrec := hopen.records known hfns hscope hjudged
    have hsep := hp.separate
    rw [literals_eq] at hsep
    obtain ⟨hsepm, -, happ⟩ := separate_append.mp hsep
    have hvisible : ∀ s ∈ code.ownSites [],
        s.InScope fns (scope ++ code.literals.map (·.ident)) := by
      intro s hs
      refine inScope_of_mem_ownSites hp.calls (fun n hn => List.mem_append_left _ hn) ?_ (by simp) hs
      exact fun m hm =>
        List.mem_append_right _ (List.mem_map_of_mem (members_subset_literals hm))
    have hagree : ∀ n ∈ scope ++ code.literals.map (·.ident), n ∈ known ↔ n ∈ c₁.known := by
      intro n hn
      rcases List.mem_append.mp hn with hn | hn
      · exact hscope n hn
      · obtain ⟨m, hm, rfl⟩ := List.mem_map.mp hn
        exact hjudged m hm
    have hdecide := Classification.decideAll_records hvisible hsepm
      (hopen.known_subset hc hp.declared) hfns hagree hrec.pendingEntry
    rw [hc₂] at hdecide
    exact hrec.decide hdecide happ
  · rw [hknown]
    exact hopen.maximal

/-! ## The exploration of code -/

/-- What is given for code that is explored where the literals of `inner` are visible, those of its
first run among them. -/
structure Opened (fns inner : List Name) (code : Code) : Prop where
  calls : code.erase.CallsInScope fns inner
  run : ∀ n ∈ code.runNames, n ∈ inner
  separate : Separate code.literals
  hidden : ∀ m ∈ code.run.flatMap (·.body.literals) ++ code.afterRun.literals, m.ident ∉ inner
  declared : ∀ m ∈ code.literals, m.ident ∈ fns

/-- The literals of a block are visible in it once its run is opened. -/
theorem Placed.opened (hp : code.Placed fns scope) : code.Opened fns (code.runNames ++ scope) where
  calls := hp.calls.mono fun n hn => List.mem_append_right _ hn
  run := fun n hn => List.mem_append_left _ hn
  separate := hp.separate
  declared := hp.declared
  hidden := by
    intro m hm hn
    have hperm := code.literals_perm
    obtain ⟨-, -, happ⟩ := separate_append.mp (hp.separate.of_perm hperm)
    rcases List.mem_append.mp hn with hn | hn
    · rw [← map_ident_run] at hn
      obtain ⟨m', hm', hi⟩ := List.mem_map.mp hn
      exact (happ m' hm' m hm).1 hi
    · exact hp.hidden m (hperm.mem_iff.mpr (List.mem_append_right _ hm)) hn

/-- The literals from a literal on: itself, those in its body and those behind it. -/
theorem literals_fn_perm (id : RecordId) (ident : Name) (params : List Name) (blk : BlockId)
    (body rest : Code) :
    (fn id ident params blk body rest).literals.Perm
      (⟨id, ident, params, blk, body, rest⟩ :: (body.literals ++ rest.literals)) := by
  rw [literals_fn, literals_eq rest]
  exact (List.perm_append_comm_assoc ..).cons _

/-- The literals from a conditional on: those in its blocks and those behind it. -/
theorem literals_branch_perm (id : RecordId) (ident cond : Name) (yesBlk noBlk : BlockId)
    (yes no rest : Code) :
    (branch id ident cond yesBlk noBlk yes no rest).literals.Perm
      (yes.literals ++ (no.literals ++ rest.literals)) := by
  rw [literals_branch, literals_eq rest, ← List.append_assoc yes.literals]
  exact List.perm_append_comm_assoc ..

/-- What is recorded about a block that is explored and decided are its literals. -/
theorem recorded_sites (c : Code) : recorded [] c.sites = c.literals := rfl

/-- All literals of code are on record when it is explored. -/
theorem recorded_members (c : Code) : recorded c.members c.innerSites = c.literals :=
  (literals_eq c).symm

/-- Every exploration of code keeps its promise. -/
theorem plan_spec {code : Code} {inner : List Name} (h : code.Opened fns inner) :
    PlanSpec optimize fns inner code (code.plan optimize) := by
  induction code generalizing inner with
  | done => exact ⟨rfl, by simp [plan], fun c _ _ => Progress.refl ..⟩
  | op id ident o rest ih =>
      have hrest : rest.Placed fns inner := ⟨h.calls.2, h.separate, h.hidden, h.declared⟩
      refine ⟨rfl, by simp [plan], ?_⟩
      exact (Explores.visit h.calls.1).bind (explore_explores hrest (ih hrest.opened)) (by simp)
        (by simp [recorded, Apart]) (by simp [recorded]) (by simp)
        (fun n hn m' hm' hi => hrest.hidden m' hm' (hi ▸ hn)) (fun n hn => .inl hn)
  | fn id ident params blk body rest ihb ih =>
      have hperm := literals_fn_perm id ident params blk body rest
      obtain ⟨hb, hr⟩ := h.calls
      rw [runNames_erase] at hb hr
      have hinner : ∀ n ∈ ident :: rest.runNames ++ inner, n ∈ inner := by
        intro n hn
        rcases List.mem_append.mp hn with hn | hn
        · exact h.run n hn
        · exact hn
      have hsep := h.separate.of_perm hperm
      obtain ⟨-, hsep, -⟩ := separate_append.mp (show Separate ([_] ++ _) from hsep)
      obtain ⟨hsepb, hsepr, -⟩ := separate_append.mp hsep
      have hhidden : ∀ m ∈ body.literals ++
          (rest.run.flatMap (·.body.literals) ++ rest.afterRun.literals), m.ident ∉ inner := by
        intro m hm
        refine h.hidden m ?_
        rw [run, List.flatMap_cons, List.append_assoc]
        exact hm
      have hdecl : ∀ m ∈ body.literals ++ rest.literals, m.ident ∈ fns := fun m hm =>
        h.declared m (hperm.mem_iff.mpr (List.mem_cons_of_mem _ hm))
      have hbody : body.Placed fns inner :=
        ⟨hb.mono hinner, hsepb, fun m hm => hhidden m (List.mem_append_left _ hm),
          fun m hm => hdecl m (List.mem_append_left _ hm)⟩
      have hrest : rest.Opened fns inner :=
        ⟨hr.mono hinner, fun n hn => h.run n (List.mem_cons_of_mem _ hn), hsepr,
          fun m hm => hhidden m (List.mem_append_right _ hm),
          fun m hm => hdecl m (List.mem_append_right _ hm)⟩
      have hspec := ih hrest
      refine ⟨?_, ?_, hspec.after⟩
      · rw [plan, List.map_cons, hspec.run]
        rfl
      · intro x hx
        rcases List.mem_cons.mp hx with rfl | hx
        · exact exploreBlock_explores hbody (ihb hbody.opened)
        · exact hspec.bodies x hx
  | branch id ident cond yesBlk noBlk yes no rest ihy ihn ih =>
      have hperm := literals_branch_perm id ident cond yesBlk noBlk yes no rest
      obtain ⟨hcy, hcn, hcr⟩ := h.calls
      obtain ⟨hsepy, hsep, happy⟩ := separate_append.mp (h.separate.of_perm hperm)
      obtain ⟨hsepn, hsepr, happn⟩ := separate_append.mp hsep
      have hhidden : ∀ m ∈ yes.literals ++ (no.literals ++ rest.literals), m.ident ∉ inner :=
        fun m hm => h.hidden m (hperm.mem_iff.mpr hm)
      have hdecl : ∀ m ∈ yes.literals ++ (no.literals ++ rest.literals), m.ident ∈ fns :=
        fun m hm => h.declared m (hperm.mem_iff.mpr hm)
      simp only [List.mem_append] at hhidden hdecl
      have hyes : yes.Placed fns inner :=
        ⟨hcy, hsepy, fun m hm => hhidden m (.inl hm), fun m hm => hdecl m (.inl hm)⟩
      have hno : no.Placed fns inner :=
        ⟨hcn, hsepn, fun m hm => hhidden m (.inr (.inl hm)), fun m hm => hdecl m (.inr (.inl hm))⟩
      have hrest : rest.Placed fns inner :=
        ⟨hcr, hsepr, fun m hm => hhidden m (.inr (.inr hm)), fun m hm => hdecl m (.inr (.inr hm))⟩
      refine ⟨rfl, by simp [plan], ?_⟩
      have hlast := (exploreBlock_explores hno (ihn hno.opened)).bind
        (explore_explores hrest (ih hrest.opened)) hno.declared
        (by rw [recorded_sites, recorded_members]; exact happn)
        (fun m' hm' m hm => (happn m hm m' hm').1) (fun m hm m' hm' => (happn m hm m' hm').1.symm)
        (fun n hn m' hm' hi => hrest.hidden m' hm' (hi ▸ hn)) (fun n hn => .inl hn)
      have hall := (exploreBlock_explores hyes (ihy hyes.opened)).bind hlast hyes.declared
        (by
          intro m hm m' hm'
          refine happy m hm m' ?_
          rw [recorded, List.nil_append, List.map_append] at hm'
          simp only [List.mem_append, literals_eq rest] at hm' ⊢
          tauto)
        (fun m' hm' m hm => (happy m hm m' hm').1) (fun m hm m' hm' => (happy m hm m' hm').1.symm)
        (fun n hn m' hm' hi => hhidden m' (by
          rcases List.mem_append.mp hm' with hm' | hm'
          · exact .inr (.inl hm')
          · exact .inr (.inr hm')) (hi ▸ hn))
        (fun n hn => .inl hn)
      refine hall.congr (fun m => hperm.mem_iff) (fun m => Iff.rfl) ?_ ?_
      · intro s
        simp only [afterRun, innerSites, sites, List.append_assoc]
      · intro x
        simp only [afterRun, calls, List.append_assoc]

/-- Classifying code from scratch judges and records all its literals and calls. -/
theorem classify_progress {code : Code} (hp : code.Placed fns []) :
    Progress optimize fns [] code.literals [] code.sites code.calls .empty
      (code.classify optimize).val := by
  refine exploreBlock_explores hp (plan_spec hp.opened) .empty ?_ ?_
  · exact fun n hn => absurd hn (NameSet.not_mem_empty n)
  · exact fun m _ => ⟨NameSet.not_mem_empty _, rfl⟩

end Code

end ClosureConversion
