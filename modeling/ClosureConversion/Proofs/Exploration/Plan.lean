import ClosureConversion.Proofs.Exploration.Stack

/-!
# Exploration of unfolded code

The exploration of an arena follows links, keeps a stack and may fail. On code that is already
unfolded none of this is needed: `Code.plan` splits code into the run it begins with and what follows
the run, which makes the whole exploration a recursion over code. The steps are those of the
exploration of an arena, one by one, and so are the events. Where an arena unfolds, both come to the
same (`Arena.classifyTraced_eq`); what is proved about the exploration is proved about this form.
-/

namespace ClosureConversion

/-- A member of a run of function literals. -/
structure Member where
  id : RecordId
  ident : Name
  params : List Name
  blk : BlockId
  body : Code
  /-- What follows the literal in its block. -/
  rest : Code

namespace Member

/-- The free names of a member. -/
def freeNames (m : Member) (known : NameSet) : NameSet := m.body.bodyFreeNames known m.params

/-- A member as a literal of an arena. -/
def inArena (m : Member) : Arena.Literal := ⟨m.id, m.ident, m.params, m.blk⟩

end Member

/-- A member of a run with the exploration of its body. -/
abbrev Candidate := Member × Exploration

/-- The candidates whose names were not rejected. -/
def Candidate.spared (run : List Candidate) (rejected : List Name) : List Candidate :=
  run.filter (·.1.ident ∉ rejected)

namespace Classification

/-! ## Settling a run -/

/-- Explore the bodies of candidates one after the other and collect the names of those that turn
out to have free names. -/
def tryAll : List Candidate → Classification → Traced (Classification × List Name)
  | [], c => pure (c, [])
  | (m, explore) :: rest, c => do
    Traced.tell (.assume m.ident)
    let c ← explore c
    let free := m.freeNames c.known
    if free.isEmpty then tryAll rest c
    else do
      Traced.tell (.backtrack m.ident free.toList)
      let (c, rejected) ← tryAll rest c
      return (c, m.ident :: rejected)

/-- The state in which candidates are taken to be known. -/
def assume (c : Classification) (run : List Candidate) : Classification :=
  c.supposing (run.map (·.1.ident))

/-- Assume candidates to be known; as long as some fail, drop those and start over. -/
def settle (run : List Candidate) (c : Classification) : Traced Classification := do
  let (explored, rejected) ← tryAll run (c.assume run)
  if (Candidate.spared run rejected).length < run.length then
    settle (Candidate.spared run rejected) c
  else return explored
termination_by run.length

/-- Make closures of the members that are not known. -/
def closeOver : List Candidate → Exploration
  | [], c => pure c
  | (m, explore) :: rest, c =>
    if m.ident ∈ c.known then closeOver rest c
    else do
      let c ← explore c
      let captures := ((m.freeNames c.known).erase m.ident).toList
      closeOver rest (← c.close m.ident captures)

/-- Classify the members of a run. Without `optimize` none of them is tried as known. -/
def classifyRun (optimize : Bool) (run : List Candidate) : Exploration := fun c => do
  closeOver run (← settle (if optimize then run else []) c)

/-! ## Deciding the literals of a block -/

/-- The names needed behind a member, with its own name added if an earlier member of the run needs
it. -/
def suffixNames (known : NameSet) (earlier : List Member) (m : Member) : NameSet :=
  let free := m.rest.freeNames known
  if earlier.any (fun e => m.ident ∈ e.freeNames known) then free.insert m.ident else free

/-- Decide one literal. -/
def decide (earlier : List Member) (m : Member) : Exploration := fun c =>
  c.conclude m.inArena (suffixNames c.known earlier m)

/-- Decide the literals of a block; `earlier` are the members of the run so far. -/
def decideAll (earlier : List Member) : Code → Exploration
  | .done, c => pure c
  | .op _ _ _ rest, c => decideAll [] rest c
  | .branch _ _ _ _ _ _ _ rest, c => decideAll [] rest c
  | .fn id ident params blk body rest, c => do
    let m : Member := ⟨id, ident, params, blk, body, rest⟩
    decideAll (earlier ++ [m]) rest (← decide earlier m c)

end Classification

/-! ## The exploration of code -/

/-- Code as the run of literals it begins with and the exploration of what follows the run. -/
structure Plan where
  run : List Candidate
  after : Exploration

/-- Settle the run, then explore what follows. -/
def Plan.explore (optimize : Bool) (p : Plan) : Exploration := fun c => do
  p.after (← Classification.classifyRun optimize p.run c)

/-- Explore a whole block, then decide its literals. -/
def Plan.exploreBlock (optimize : Bool) (p : Plan) (block : Code) : Exploration := fun c => do
  Classification.decideAll [] block (← p.explore optimize c)

namespace Code

/-- The exploration of code. -/
def plan (optimize : Bool) : Code → Plan
  | .done => ⟨[], pure⟩
  | .op id ident o rest =>
    ⟨[], fun c => do (rest.plan optimize).explore optimize (← c.visit id ident o)⟩
  | .fn id ident params blk body rest =>
    let following := rest.plan optimize
    let exploreBody := (body.plan optimize).exploreBlock optimize body
    ⟨(⟨id, ident, params, blk, body, rest⟩, exploreBody) :: following.run, following.after⟩
  | .branch _ _ _ _ _ yes no rest =>
    ⟨[], fun c => do
      let c ← (yes.plan optimize).exploreBlock optimize yes c
      let c ← (no.plan optimize).exploreBlock optimize no c
      (rest.plan optimize).explore optimize c⟩

/-- Classify every function literal in code. -/
def classify (optimize : Bool) (code : Code) : Traced Classification := do
  let c ← (code.plan optimize).exploreBlock optimize code .empty
  Traced.tell (.summary c.decisions.size c.known.size c.closures.size c.closureCalls.size)
  return c

end Code

/-! ## Steps by their results -/

namespace Classification

/-- What deciding a literal changes. -/
theorem decide_val_eq (earlier : List Member) (m : Member) (c : Classification) :
    (decide earlier m c).val = { c with
      closures := if m.ident ∈ suffixNames c.known earlier m then
        c.closures.insert m.ident ((c.closures.get? m.ident).getD []) else c.closures
      suffixes := c.suffixes.insert m.ident (suffixNames c.known earlier m)
      decisions := c.decisions.insert m.id ⟨m.ident, m.params, m.blk,
        if m.ident ∈ c.known then .known else .closure,
        if m.ident ∈ suffixNames c.known earlier m then
          .makeClosure ((c.closures.get? m.ident).getD []) else .remove⟩ } := by
  unfold decide
  generalize suffixNames c.known earlier m = suffix
  show (c.conclude ⟨m.id, m.ident, m.params, m.blk⟩ suffix).val = _
  unfold conclude
  by_cases h : m.ident ∈ suffix
  · simp only [if_pos h, Traced.val_bind, Traced.val_pure]
  · simp only [if_neg h, Traced.val_bind, Traced.val_pure]

/-- Only names of candidates are rejected. -/
theorem mem_run_of_mem_rejected {run : List Candidate} {c : Classification} {n : Name}
    (h : n ∈ (tryAll run c).val.2) : n ∈ run.map (·.1.ident) := by
  induction run generalizing c with
  | nil => exact absurd h List.not_mem_nil
  | cons x rest ih =>
      simp only [tryAll, Traced.val_bind] at h
      split at h
      · exact List.mem_cons_of_mem _ (ih h)
      · rcases List.mem_cons.mp h with rfl | h
        · exact List.mem_cons_self
        · exact List.mem_cons_of_mem _ (ih h)

/-- Dropping what a round rejects drops something, unless it rejects nothing. -/
theorem length_spared_lt_iff {run : List Candidate} {rejected : List Name}
    (h : ∀ n ∈ rejected, n ∈ run.map (·.1.ident)) :
    (Candidate.spared run rejected).length < run.length ↔ rejected ≠ [] :=
  length_filter_notMem_lt_iff h

/-- A round of settling: it is the last if it rejects nothing. -/
theorem settle_val_eq (run : List Candidate) (c : Classification) :
    (settle run c).val =
      if (tryAll run (c.assume run)).val.2.isEmpty then (tryAll run (c.assume run)).val.1
      else (settle (Candidate.spared run (tryAll run (c.assume run)).val.2) c).val := by
  have hlen : (Candidate.spared run (tryAll run (c.assume run)).val.2).length < run.length ↔
      (tryAll run (c.assume run)).val.2 ≠ [] :=
    length_spared_lt_iff fun _ => mem_run_of_mem_rejected
  rw [settle, Traced.val_bind]
  generalize (tryAll run (c.assume run)).val = round at hlen ⊢
  obtain ⟨explored, rejected⟩ := round
  cases rejected with
  | nil => exact congrArg Traced.val (if_neg fun h => hlen.mp h rfl)
  | cons n rejected => exact congrArg Traced.val (if_pos (hlen.mpr (List.cons_ne_nil _ _)))

/-- Without candidates there is nothing to settle. -/
theorem settle_nil (c : Classification) : settle [] c = pure c := by
  rw [settle]
  rfl

/-- Without `optimize` all members of a run become closures, unless they were known before. -/
theorem classifyRun_false (run : List Candidate) : classifyRun false run = closeOver run := by
  funext c
  show settle [] c >>= closeOver run = _
  rw [settle_nil]
  rfl

/-- A run without members changes nothing. -/
theorem classifyRun_nil (optimize : Bool) (c : Classification) :
    classifyRun optimize [] c = pure c := by
  show settle (if optimize then [] else []) c >>= closeOver [] = _
  rw [ite_self, settle_nil]
  rfl

end Classification

/-- Where code begins with no run, its exploration is that of what follows. -/
theorem Plan.explore_of_run_eq_nil {p : Plan} (h : p.run = []) (optimize : Bool) :
    p.explore optimize = p.after := by
  funext c
  show Classification.classifyRun optimize p.run c >>= p.after = _
  rw [h, Classification.classifyRun_nil]
  rfl

end ClosureConversion
