import ClosureConversion.Proofs.Exploration.Bookkeeping
import ClosureConversion.Proofs.Renaming.Names

/-!
# Programs that mirror each other

The exploration compares names and looks up records, and does nothing else with either. So it takes
the same course on two codes that differ in their names and numbers only. A `Correspondence` says how
they differ: by a renaming of the names, a relation between the records and a relation between the
blocks. `Code.Mirrors` and `Classification.Mirrors` say that two codes, or two states of the
exploration, differ in that way and in no other. If no record has two partners, each step on one side
and the same step on the other keep the states in correspondence (`Lockstep`), runs are treated by
induction over their members, and `Code.Mirrors.classify` follows by induction over code. Names may be
shared and scopes may be violated.
-/

namespace ClosureConversion

/-- How two programs differ: in their names, in the numbers of their records and in the numbers of
their blocks. -/
structure Correspondence where
  names : Name ↪ Name
  records : RecordId → RecordId → Prop
  blocks : BlockId → BlockId → Prop

/-- A relation under which no record has two partners, on either side. -/
def OneToOne (R : RecordId → RecordId → Prop) : Prop :=
  ∀ x x' y y', R x y → R x' y' → (x = x' ↔ y = y')

variable {k : Correspondence}

/-! ## Codes that mirror each other -/

/-- The second code is the first with other names and numbers. -/
inductive Code.Mirrors (k : Correspondence) : Code → Code → Prop where
  | done : Mirrors k .done .done
  | op {id id' : RecordId} {rest rest' : Code} (ident : Name) (o : Operation) :
    k.records id id' → Mirrors k rest rest' →
    Mirrors k (.op id ident o rest) (.op id' (k.names ident) (o.rename k.names) rest')
  | fn {id id' : RecordId} {blk blk' : BlockId} {body body' rest rest' : Code} (ident : Name)
    (params : List Name) : k.records id id' → k.blocks blk blk' → Mirrors k body body' →
    Mirrors k rest rest' → Mirrors k (.fn id ident params blk body rest)
      (.fn id' (k.names ident) (params.map k.names) blk' body' rest')
  | branch {id id' : RecordId} {yesBlk yesBlk' noBlk noBlk' : BlockId}
    {yes yes' no no' rest rest' : Code} (ident cond : Name) : k.records id id' →
    Mirrors k yes yes' → Mirrors k no no' → Mirrors k rest rest' →
    Mirrors k (.branch id ident cond yesBlk noBlk yes no rest)
      (.branch id' (k.names ident) (k.names cond) yesBlk' noBlk' yes' no' rest')

/-- The second member of a run is the first with other names and numbers. -/
structure Member.Mirrors (k : Correspondence) (m m' : Member) : Prop where
  id : k.records m.id m'.id
  ident : m'.ident = k.names m.ident
  params : m'.params = m.params.map k.names
  blk : k.blocks m.blk m'.blk
  body : m.body.Mirrors k m'.body
  rest : m.rest.Mirrors k m'.rest

namespace Code.Mirrors

variable {c c' : Code}

/-- The names of the run that code begins with, renamed. -/
theorem runNames_eq (h : c.Mirrors k c') : c'.runNames = c.runNames.map k.names := by
  induction h with
  | fn ident params _ _ _ _ _ ih => exact congrArg (k.names ident :: ·) ih
  | _ => rfl

/-- The walk finds the renamed names. The induction follows the walk, which carries the names in scope
and those found so far. -/
theorem gather_eq (h : c.Mirrors k c') (known : NameSet) (bound : List Name) (inRun : Bool)
    (found : NameSet) :
    c'.gather (known.rename k.names) (bound.map k.names) inRun (found.rename k.names) =
      (c.gather known bound inRun found).rename k.names := by
  induction h generalizing bound inRun found with
  | done => rfl
  | op ident o _ _ ih =>
      simp only [gather, Operation.needs_rename, ← NameSet.rename_addFree]
      exact ih (ident :: bound) false _
  | @fn _ _ _ _ _ _ rest rest' ident params _ _ _ hrest ihb ih =>
      have hscope : (if inRun then bound.map k.names
            else k.names ident :: rest'.runNames ++ bound.map k.names) =
          (if inRun then bound else ident :: rest.runNames ++ bound).map k.names := by
        cases inRun with
        | true => rfl
        | false => simp [hrest.runNames_eq]
      simp only [gather, hscope, ← List.map_cons, ← List.map_append, ihb, ih]
  | branch ident cond _ _ _ _ ihy ihn ih =>
      have hcond : (found.rename k.names).addFree (bound.map k.names) [k.names cond] =
          (found.addFree bound [cond]).rename k.names :=
        (found.rename_addFree k.names bound [cond]).symm
      simp only [gather, hcond, ihy, ihn]
      exact ih (ident :: bound) false _

/-- The free names, renamed. -/
theorem freeNames_eq (h : c.Mirrors k c') (known : NameSet) :
    c'.freeNames (known.rename k.names) = (c.freeNames known).rename k.names :=
  h.gather_eq known [] false ∅

/-- The free names of a body, renamed. -/
theorem bodyFreeNames_eq (h : c.Mirrors k c') (known : NameSet) (params : List Name) :
    c'.bodyFreeNames (known.rename k.names) (params.map k.names) =
      (c.bodyFreeNames known params).rename k.names := by
  rw [bodyFreeNames, bodyFreeNames, h.freeNames_eq, NameSet.rename_eraseAll]

end Code.Mirrors

/-- The free names of a member, renamed. -/
theorem Member.Mirrors.freeNames_eq {m m' : Member} (h : m.Mirrors k m') (known : NameSet) :
    m'.freeNames (known.rename k.names) = (m.freeNames known).rename k.names := by
  unfold Member.freeNames
  rw [h.params]
  exact h.body.bodyFreeNames_eq known m.params

/-! ## States that mirror each other -/

/-- An action with the captured names replaced. -/
def Action.rename (r : Name ↪ Name) : Action → Action
  | .remove => .remove
  | .makeClosure captures => .makeClosure (captures.map r)

/-- The second decision is the first with other names and another body. -/
structure Decision.Mirrors (k : Correspondence) (d d' : Decision) : Prop where
  name : d'.name = k.names d.name
  params : d'.params = d.params.map k.names
  body : k.blocks d.body d'.body
  standing : d'.standing = d.standing
  action : d'.action = d.action.rename k.names

/-- The second state is the first with other names and numbers. -/
structure Classification.Mirrors (k : Correspondence) (c c' : Classification) : Prop where
  known : c'.known = c.known.rename k.names
  closures : c'.closures = c.closures.rename k.names (List.map k.names)
  suffixes : c'.suffixes = c.suffixes.rename k.names (NameSet.rename k.names)
  calls : ∀ {id id'}, k.records id id' → (c.closureCalls.contains id = true ↔
    c'.closureCalls.contains id' = true)
  decisions : ∀ {id id'}, k.records id id' →
    Option.Rel (Decision.Mirrors k) (c.decisions.get? id) (c'.decisions.get? id')

/-- Two steps that keep states in correspondence. -/
def Lockstep (k : Correspondence) (e e' : Exploration) : Prop :=
  ∀ c c' : Classification, c.Mirrors k c' → (e c).val.Mirrors k (e' c').val

/-- Steps one after the other. -/
theorem Lockstep.bind {e₁ e₁' e₂ e₂' : Exploration} (h₁ : Lockstep k e₁ e₁')
    (h₂ : Lockstep k e₂ e₂') : Lockstep k (fun c => e₁ c >>= e₂) (fun c => e₁' c >>= e₂') :=
  fun c c' h => h₂ _ _ (h₁ c c' h)

/-- Candidates that mirror each other and are explored in lockstep. -/
structure Candidate.Mirrors (k : Correspondence) (x x' : Candidate) : Prop where
  member : x.1.Mirrors k x'.1
  explore : Lockstep k x.2 x'.2

namespace Classification

variable {c c' : Classification} {run run' : List Candidate}

/-- Nothing decided mirrors nothing decided. -/
theorem Mirrors.empty : Classification.empty.Mirrors k .empty :=
  ⟨rfl, rfl, rfl, fun _ => Iff.rfl, fun _ => .none⟩

/-- A name is known on one side if its partner is on the other. -/
theorem Mirrors.mem_known_iff (h : c.Mirrors k c') {n : Name} :
    k.names n ∈ c'.known ↔ n ∈ c.known := by
  rw [h.known, NameSet.mem_rename]

/-- The captured names of partners are partners. -/
theorem Mirrors.captures_eq (h : c.Mirrors k c') (n : Name) :
    (c'.closures.get? (k.names n)).getD [] = ((c.closures.get? n).getD []).map k.names := by
  rw [h.closures, Table.get?_rename]
  cases c.closures.get? n <;> rfl

/-! ## Single steps -/

/-- A flat instruction is explored in lockstep. -/
theorem visit_lockstep (hk : OneToOne k.records) {id id' : RecordId} (hid : k.records id id')
    (ident : Name) (o : Operation) : Lockstep k (fun c => c.visit id ident o)
      (fun c => c.visit id' (k.names ident) (o.rename k.names)) := by
  intro c c' h
  cases o with
  | app callee args indirect =>
      simp only [visit, Operation.rename]
      by_cases hc : callee ∈ c.known
      · rw [if_pos hc, if_pos (h.mem_known_iff.mpr hc)]
        exact h
      · rw [if_neg hc, if_neg (mt h.mem_known_iff.mp hc)]
        -- only this call is marked, on either side
        refine ⟨h.known, h.closures, h.suffixes, fun {x x'} hx => ?_, h.decisions⟩
        simp only [Traced.val_bind, Traced.val_pure, Table.contains_insert, h.calls hx,
          hk _ _ _ _ hx hid]
  | _ => exact h

/-- Runs that mirror each other are assumed on both sides. -/
theorem Mirrors.assume (h : c.Mirrors k c') (hrun : List.Forall₂ (Candidate.Mirrors k) run run') :
    (c.assume run).Mirrors k (c'.assume run') := by
  have hnames : run'.map (·.1.ident) = (run.map (·.1.ident)).map k.names := by
    induction hrun with
    | nil => rfl
    | cons hx _ ih => rw [List.map_cons, List.map_cons, List.map_cons, ih, hx.member.ident]
  refine ⟨?_, h.closures, h.suffixes, h.calls, h.decisions⟩
  unfold Classification.assume supposing
  rw [h.known, hnames, NameSet.rename_insertAll]

/-- The captures of partners are recorded on both sides. -/
theorem Mirrors.capture (h : c.Mirrors k c') {m m' : Member} (hm : m.Mirrors k m') :
    (c.capture m).Mirrors k (c'.capture m') := by
  refine ⟨h.known, ?_, h.suffixes, h.calls, h.decisions⟩
  unfold Classification.capture
  rw [h.known, h.closures, hm.freeNames_eq, hm.ident, Table.rename_insert, ← NameSet.rename_erase,
    NameSet.toList_rename]

/-- The names needed behind a literal, renamed. -/
theorem suffixNames_eq {earlier earlier' : List Member}
    (he : List.Forall₂ (Member.Mirrors k) earlier earlier') {m m' : Member} (hm : m.Mirrors k m')
    (known : NameSet) : suffixNames (known.rename k.names) earlier' m' =
      (suffixNames known earlier m).rename k.names := by
  have hany : earlier'.any (fun e => m'.ident ∈ e.freeNames (known.rename k.names)) =
      earlier.any (fun e => m.ident ∈ e.freeNames known) := by
    induction he with
    | nil => rfl
    | cons hx _ ih =>
        rw [List.any_cons, List.any_cons, ih, hx.freeNames_eq, hm.ident]
        simp only [NameSet.mem_rename]
  unfold suffixNames
  rw [hany, hm.rest.freeNames_eq, hm.ident]
  split
  · exact (NameSet.rename_insert k.names _ _).symm
  · rfl

/-- A literal is decided in lockstep. -/
theorem decide_lockstep (hk : OneToOne k.records) {earlier earlier' : List Member}
    (he : List.Forall₂ (Member.Mirrors k) earlier earlier') {m m' : Member}
    (hm : m.Mirrors k m') : Lockstep k (decide earlier m) (decide earlier' m') := by
  intro c c' h
  have hsuffix := suffixNames_eq he hm c.known
  rw [← h.known] at hsuffix
  have hneeded : k.names m.ident ∈ (suffixNames c.known earlier m).rename k.names ↔
      m.ident ∈ suffixNames c.known earlier m := NameSet.mem_rename k.names
  rw [decide_val_eq, decide_val_eq, hsuffix, hm.ident, h.captures_eq]
  refine ⟨h.known, ?_, ?_, h.calls, fun {x x'} hx => ?_⟩
  · simp only [hneeded]
    split
    · rw [Table.rename_insert, h.closures]
    · exact h.closures
  · rw [Table.rename_insert, h.suffixes]
  · simp only [Table.get?_insert, hk _ _ _ _ hx hm.id]
    split
    · refine .some ⟨rfl, hm.params, hm.blk, ?_, ?_⟩
      · simp only [h.mem_known_iff]
      · simp only [hneeded]
        split <;> rfl
    · exact h.decisions hx

/-- The literals of a block are decided in lockstep. -/
theorem decideAll_lockstep (hk : OneToOne k.records) {code code' : Code}
    (hc : code.Mirrors k code') {earlier earlier' : List Member}
    (he : List.Forall₂ (Member.Mirrors k) earlier earlier') :
    Lockstep k (decideAll earlier code) (decideAll earlier' code') := by
  induction hc generalizing earlier earlier' with
  | done => exact fun _ _ h => h
  | op ident o _ _ ih => exact ih .nil
  | branch ident cond _ _ _ _ _ _ ih => exact ih .nil
  | @fn id id' blk blk' body body' rest rest' ident params hid hblk hb hrest _ ih =>
      have hm : Member.Mirrors k ⟨id, ident, params, blk, body, rest⟩
          ⟨id', k.names ident, params.map k.names, blk', body', rest'⟩ :=
        ⟨hid, rfl, rfl, hblk, hb, hrest⟩
      exact (decide_lockstep hk he hm).bind (ih (List.rel_append he (.cons hm .nil)))

/-! ## Runs -/

/-- A round of tries on both sides: the states stay in correspondence, and partners are rejected. -/
theorem tryAll_lockstep (hrun : List.Forall₂ (Candidate.Mirrors k) run run')
    (h : c.Mirrors k c') :
    (tryAll run c).val.1.Mirrors k (tryAll run' c').val.1 ∧
      (tryAll run' c').val.2 = (tryAll run c).val.2.map k.names := by
  induction hrun generalizing c c' with
  | nil => exact ⟨h, rfl⟩
  | @cons x x' rest rest' hx _ ih =>
      obtain ⟨m, explore⟩ := x
      obtain ⟨m', explore'⟩ := x'
      have hstep := hx.explore c c' h
      obtain ⟨hmirrors, hnames⟩ := ih hstep
      have hfree : (m'.freeNames (explore' c').val.known).isEmpty =
          (m.freeNames (explore c).val.known).isEmpty := by
        rw [hstep.known, hx.member.freeNames_eq, NameSet.isEmpty_rename]
      simp only [tryAll, Traced.val_bind, hfree]
      split
      · exact ⟨hmirrors, hnames⟩
      · simp only [Traced.val_bind, Traced.val_pure, hnames, List.map_cons]
        exact ⟨hmirrors, congrArg (· :: _) hx.member.ident⟩

/-- Runs are settled in lockstep. -/
theorem settle_lockstep (hrun : List.Forall₂ (Candidate.Mirrors k) run run') :
    Lockstep k (settle run) (settle run') := by
  induction run using settle.induct generalizing run' with
  | case1 run ih =>
      intro c c' h
      -- partners are rejected, so the runs that are left mirror each other again
      obtain ⟨hmirrors, hnames⟩ := tryAll_lockstep hrun (h.assume hrun)
      rw [settle_val_eq, settle_val_eq run', hnames, List.isEmpty_map]
      split
      next => exact hmirrors
      next hr =>
        have hshort := (length_spared_lt_iff fun n => mem_run_of_mem_rejected).mpr
          fun h => hr (List.isEmpty_iff.mpr h)
        refine ih _ hshort (List.rel_filter (fun x x' hx => ?_) hrun) c c' h
        simp only [hx.member.ident, decide_eq_true_iff]
        exact not_congr mem_map_name.symm

/-- The members that are not known are closed over in lockstep. -/
theorem closeOver_lockstep (hrun : List.Forall₂ (Candidate.Mirrors k) run run') :
    Lockstep k (closeOver run) (closeOver run') := by
  induction hrun with
  | nil => exact fun _ _ h => h
  | @cons x x' _ _ hx _ ih =>
      intro c c' h
      have hknown : x'.1.ident ∈ c'.known ↔ x.1.ident ∈ c.known := by
        rw [hx.member.ident, h.mem_known_iff]
      rw [closeOver_cons_val, closeOver_cons_val]
      simp only [hknown]
      split
      · exact ih c c' h
      · exact ih _ _ ((hx.explore c c' h).capture hx.member)

/-- Runs are classified in lockstep. -/
theorem classifyRun_lockstep (optimize : Bool)
    (hrun : List.Forall₂ (Candidate.Mirrors k) run run') :
    Lockstep k (classifyRun optimize run) (classifyRun optimize run') := by
  have htried : List.Forall₂ (Candidate.Mirrors k) (if optimize then run else [])
      (if optimize then run' else []) := by
    cases optimize
    · exact .nil
    · exact hrun
  exact (settle_lockstep htried).bind (closeOver_lockstep hrun)

end Classification

/-! ## The exploration of code -/

open Classification

/-- Plans that go in lockstep. -/
structure Plan.Mirrors (k : Correspondence) (p p' : Plan) : Prop where
  run : List.Forall₂ (Candidate.Mirrors k) p.run p'.run
  after : Lockstep k p.after p'.after

namespace Plan.Mirrors

variable {p p' : Plan}

/-- What plans explore is explored in lockstep. -/
theorem explore (h : p.Mirrors k p') (optimize : Bool) :
    Lockstep k (p.explore optimize) (p'.explore optimize) :=
  (classifyRun_lockstep optimize h.run).bind h.after

/-- Blocks are explored and their literals decided in lockstep. -/
theorem exploreBlock (h : p.Mirrors k p') (hk : OneToOne k.records) (optimize : Bool)
    {code code' : Code} (hc : code.Mirrors k code') :
    Lockstep k (p.exploreBlock optimize code) (p'.exploreBlock optimize code') :=
  (h.explore optimize).bind (decideAll_lockstep hk hc .nil)

end Plan.Mirrors

namespace Code.Mirrors

variable {c c' : Code}

/-- The plans of codes that mirror each other go in lockstep. -/
theorem plan (hk : OneToOne k.records) (h : c.Mirrors k c') (optimize : Bool) :
    (c.plan optimize).Mirrors k (c'.plan optimize) := by
  induction h with
  | done => exact ⟨.nil, fun _ _ h => h⟩
  | op ident o hid _ ih =>
      exact ⟨.nil, (visit_lockstep hk hid ident o).bind (ih.explore optimize)⟩
  | fn ident params hid hblk hb hrest ihb ih =>
      refine ⟨.cons ⟨⟨hid, rfl, rfl, hblk, hb, hrest⟩, ?_⟩ ih.run, ih.after⟩
      exact ihb.exploreBlock hk optimize hb
  | branch ident cond _ hyes hno _ ihy ihn ih =>
      exact ⟨.nil, (ihy.exploreBlock hk optimize hyes).bind
        ((ihn.exploreBlock hk optimize hno).bind (ih.explore optimize))⟩

/-- The classifications of codes that mirror each other do. -/
theorem classify (hk : OneToOne k.records) (h : c.Mirrors k c') (optimize : Bool) :
    (c.classify optimize).val.Mirrors k (c'.classify optimize).val :=
  (h.plan hk optimize).exploreBlock hk optimize h .empty .empty .empty

end Code.Mirrors

end ClosureConversion
