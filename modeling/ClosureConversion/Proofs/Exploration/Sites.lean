import ClosureConversion.Proofs.Exploration.Plan
import ClosureConversion.Proofs.FreeNames

/-!
# The literals of code, and what a set of known functions says about them

A `Site` is a function literal at its place: the member itself and the members of its run before it.
`Code.sites` lists those of all literals of code, at any depth, the literals of the block itself
first. Given the known functions, everything that a classification holds about a literal is a
function of its site: `Member.captures`, `Site.suffix`, `Site.action`, `Site.decision`,
`Site.entry?`. None of them looks at a state.

The code behind its first run is `Code.afterRun`; `Code.members_eq`, `Code.innerSites_eq` and
`Code.calls_eq` take code apart into the run and that.
-/

namespace ClosureConversion

/-! ## Closed forms -/

namespace Member

/-- The names captured by a literal: none if it is known, its free names without its own if not. -/
def captures (known : NameSet) (m : Member) : List Name :=
  if m.ident ∈ known then [] else ((m.freeNames known).erase m.ident).toList

/-- A literal that is counted among the known functions has no free names under them. -/
def Supported (known : NameSet) (m : Member) : Prop :=
  m.ident ∈ known → ∀ n, n ∉ m.freeNames known

variable {known : NameSet} {m : Member} {n : Name}

/-- What is free in a member is free in its body and no parameter. -/
theorem mem_freeNames : n ∈ m.freeNames known ↔ m.body.IsFree known n ∧ n ∉ m.params :=
  Code.mem_bodyFreeNames

/-- A closure captures what is free in it, its own name apart. -/
theorem mem_captures :
    n ∈ m.captures known ↔ m.ident ∉ known ∧ n ∈ m.freeNames known ∧ n ≠ m.ident := by
  unfold captures
  split
  next hk => simp [hk]
  next hk => simp [hk, NameSet.mem_toList]

end Member

/-- A function literal with the members of its run before it. -/
structure Site where
  earlier : List Member
  member : Member

namespace Site

/-- The names needed behind a literal, its own included if an earlier member of the run needs it. -/
def suffix (known : NameSet) (s : Site) : NameSet :=
  Classification.suffixNames known s.earlier s.member

/-- What becomes of a literal. -/
def action (known : NameSet) (s : Site) : Action :=
  if s.member.ident ∈ s.suffix known then .makeClosure (s.member.captures known) else .remove

/-- The decision on a literal. -/
def decision (known : NameSet) (s : Site) : Decision :=
  ⟨s.member.ident, s.member.params, s.member.blk,
    if s.member.ident ∈ known then .known else .closure, s.action known⟩

/-- The entry of a literal in the table of captures. A known function has one only if it is used as a
value. -/
def entry? (known : NameSet) (s : Site) : Option (List Name) :=
  if s.member.ident ∈ known ∧ s.member.ident ∉ s.suffix known then none
  else some (s.member.captures known)

variable {known : NameSet} {s : Site}

/-- A known function is decided to be known. -/
theorem standing_of_mem (h : s.member.ident ∈ known) : (s.decision known).standing = .known :=
  if_pos h

/-- A function that is not known is decided to be a closure. -/
theorem standing_of_not_mem (h : s.member.ident ∉ known) :
    (s.decision known).standing = .closure :=
  if_neg h

/-- A closure record is made of a literal exactly if its name is needed behind it. -/
theorem makeClosure_iff :
    (∃ captures, (s.decision known).action = .makeClosure captures) ↔
      s.member.ident ∈ s.suffix known := by
  show (∃ captures, s.action known = .makeClosure captures) ↔ _
  unfold action
  split
  next h => exact iff_of_true ⟨_, rfl⟩ h
  next h => exact iff_of_false (fun ⟨_, hm⟩ => Action.noConfusion hm) h

/-- What a table of captures has about a literal are its captures. -/
theorem getD_entry? (known : NameSet) (s : Site) :
    (s.entry? known).getD [] = s.member.captures known := by
  unfold entry?
  split
  next h => rw [Option.getD_none, Member.captures, if_pos h.1]
  next => rfl

/-- A literal stays if its name is free behind it or in an earlier member of its run. -/
theorem mem_suffix_self :
    s.member.ident ∈ s.suffix known ↔
      s.member.rest.IsFree known s.member.ident ∨
        ∃ e ∈ s.earlier, s.member.ident ∈ e.freeNames known := by
  unfold suffix Classification.suffixNames
  rw [← Code.mem_freeNames]
  split
  next h =>
    obtain ⟨e, he, hfree⟩ := List.any_eq_true.mp h
    simp only [NameSet.mem_insert, or_true, true_iff]
    exact .inr ⟨e, he, of_decide_eq_true hfree⟩
  next h =>
    refine ⟨Or.inl, fun hor => hor.resolve_right ?_⟩
    rintro ⟨e, he, hfree⟩
    exact h (List.any_eq_true.mpr ⟨e, he, decide_eq_true hfree⟩)

end Site

/-! ## Lists of literals and calls -/

namespace Code

/-- The literals of a block itself. `earlier` are the members of the run so far. -/
def ownSites (earlier : List Member) : Code → List Site
  | .done => []
  | .op _ _ _ rest => rest.ownSites []
  | .branch _ _ _ _ _ _ _ rest => rest.ownSites []
  | .fn id ident params blk body rest =>
    ⟨earlier, ⟨id, ident, params, blk, body, rest⟩⟩ ::
      rest.ownSites (earlier ++ [⟨id, ident, params, blk, body, rest⟩])

/-- The literals in the blocks nested in a block. -/
def innerSites : Code → List Site
  | .done => []
  | .op _ _ _ rest => rest.innerSites
  | .fn _ _ _ _ body rest => (body.ownSites [] ++ body.innerSites) ++ rest.innerSites
  | .branch _ _ _ _ _ yes no rest =>
    (yes.ownSites [] ++ yes.innerSites) ++ (no.ownSites [] ++ no.innerSites) ++ rest.innerSites

/-- All literals of code, at any depth. -/
def sites (c : Code) : List Site := c.ownSites [] ++ c.innerSites

/-- The literals of a block itself, without their places. -/
def members (c : Code) : List Member := (c.ownSites []).map (·.member)

/-- All literals of code, without their places. -/
def literals (c : Code) : List Member := c.sites.map (·.member)

/-- The calls in code, at any depth: the record and the callee. -/
def calls : Code → List (RecordId × Name)
  | .done => []
  | .op id _ o rest => (o.callee?.toList.map (id, ·)) ++ rest.calls
  | .fn _ _ _ _ body rest => body.calls ++ rest.calls
  | .branch _ _ _ _ _ yes no rest => yes.calls ++ no.calls ++ rest.calls

/-- The run of literals that code begins with. -/
def run : Code → List Member
  | .fn id ident params blk body rest => ⟨id, ident, params, blk, body, rest⟩ :: rest.run
  | _ => []

/-- What follows the run of literals that code begins with. -/
def afterRun : Code → Code
  | .fn _ _ _ _ _ rest => rest.afterRun
  | c => c

/-- The names of the run are those of its members. -/
@[simp] theorem map_ident_run (c : Code) : c.run.map (·.ident) = c.runNames := by
  induction c with
  | fn id ident params blk body rest _ ih => simp [run, runNames, ih]
  | _ => rfl

/-- The literals of a block itself are its members. -/
theorem map_member_ownSites (c : Code) (earlier : List Member) :
    (c.ownSites earlier).map (·.member) = c.members := by
  unfold members
  induction c generalizing earlier with
  | fn id ident params blk body rest _ ih =>
      simp only [ownSites, List.map_cons]
      rw [ih, ih ([] ++ _)]
  | _ => rfl

/-- The members from a literal on: itself and those behind it. -/
theorem members_fn (id : RecordId) (ident : Name) (params : List Name) (blk : BlockId)
    (body rest : Code) :
    (fn id ident params blk body rest).members =
      ⟨id, ident, params, blk, body, rest⟩ :: rest.members := by
  rw [members, ownSites, List.map_cons, map_member_ownSites]

/-- The literals of code: its members and those of the blocks nested in it. -/
theorem literals_eq (c : Code) : c.literals = c.members ++ c.innerSites.map (·.member) := by
  unfold literals sites members
  rw [List.map_append]

/-- The members of a block: its first run and those behind the run. -/
theorem members_eq (c : Code) : c.members = c.run ++ c.afterRun.members := by
  induction c with
  | fn id ident params blk body rest _ ih =>
      rw [members_fn, ih]
      rfl
  | _ => rfl

/-- The inner literals: those in the bodies of the first run and those behind the run. -/
theorem innerSites_eq (c : Code) :
    c.innerSites = c.run.flatMap (·.body.sites) ++ c.afterRun.innerSites := by
  induction c with
  | fn id ident params blk body rest _ ih =>
      simp only [innerSites, run, afterRun, List.flatMap_cons, List.append_assoc, sites, ih]
  | _ => rfl

/-- The calls: those in the bodies of the first run and those behind the run. -/
theorem calls_eq (c : Code) :
    c.calls = c.run.flatMap (·.body.calls) ++ c.afterRun.calls := by
  induction c with
  | fn id ident params blk body rest _ ih =>
      simp only [calls, run, afterRun, List.flatMap_cons, List.append_assoc, ih]
  | _ => rfl

/-- The literals from a literal on, in the order in which they are listed. -/
theorem literals_fn (id : RecordId) (ident : Name) (params : List Name) (blk : BlockId)
    (body rest : Code) :
    (fn id ident params blk body rest).literals =
      ⟨id, ident, params, blk, body, rest⟩ ::
        (rest.members ++ (body.literals ++ rest.innerSites.map (·.member))) := by
  rw [literals_eq, members_fn, innerSites, List.map_append, List.cons_append]
  rfl

/-- The literals from a conditional on, in the order in which they are listed. -/
theorem literals_branch (id : RecordId) (ident cond : Name) (yesBlk noBlk : BlockId)
    (yes no rest : Code) :
    (branch id ident cond yesBlk noBlk yes no rest).literals =
      rest.members ++ ((yes.literals ++ no.literals) ++ rest.innerSites.map (·.member)) := by
  rw [literals_eq, innerSites, List.map_append, List.map_append]
  rfl

/-- The literals of code are its run, the literals in the bodies of the run, and those behind. -/
theorem literals_perm (c : Code) :
    c.literals.Perm (c.run ++ (c.run.flatMap (·.body.literals) ++ c.afterRun.literals)) := by
  have hmap : (c.run.flatMap (·.body.sites)).map (·.member) = c.run.flatMap (·.body.literals) := by
    rw [List.map_flatMap]
    rfl
  rw [literals_eq, members_eq, innerSites_eq, List.map_append, hmap, literals_eq c.afterRun,
    List.append_assoc]
  exact List.Perm.append_left _ (List.perm_append_comm_assoc ..)

/-- The literals bind the names that the nested block counts as bound by literals. -/
theorem literalNames_perm (c : Code) :
    c.erase.literalNames.Perm (c.literals.map (·.ident)) := by
  induction c with
  | done => exact List.Perm.refl _
  | op id ident o rest ih => exact ih
  | fn id ident params blk body rest ihb ih =>
      rw [literals_eq, List.map_append] at ih
      simp only [erase, Block.literalNames, literals_fn, List.map_cons, List.map_append,
        List.cons_append]
      refine List.Perm.cons _ ?_
      exact (List.Perm.append ihb ih).trans (List.perm_append_comm_assoc ..)
  | branch id ident cond yesBlk noBlk yes no rest ihy ihn ih =>
      rw [literals_eq, List.map_append] at ih
      simp only [erase, Block.literalNames, literals_branch, List.map_append]
      exact (List.Perm.append (List.Perm.append ihy ihn) ih).trans (List.perm_append_comm_assoc ..)

/-- Members are literals. -/
theorem members_subset_literals {c : Code} {m : Member} (h : m ∈ c.members) : m ∈ c.literals := by
  rw [literals_eq]
  exact List.mem_append_left _ h

/-- The first run consists of members. -/
theorem run_subset_members {c : Code} {m : Member} (h : m ∈ c.run) : m ∈ c.members := by
  rw [members_eq]
  exact List.mem_append_left _ h

end Code

/-! ## Agreement -/

section Agreement

variable {fns visible : List Name} {known known' : NameSet}

/-- The free names of a member depend on the visible functions only. -/
theorem Member.freeNames_congr {m : Member} (hk : ∀ n ∈ known, n ∈ fns)
    (hk' : ∀ n ∈ known', n ∈ fns) (hc : m.body.erase.CallsInScope fns visible)
    (hs : ∀ n ∈ visible, n ∈ known ↔ n ∈ known') : m.freeNames known = m.freeNames known' :=
  Code.bodyFreeNames_congr hk hk' hc hs

/-- The captures of a member depend on the visible functions only. -/
theorem Member.captures_congr {m : Member} (hk : ∀ n ∈ known, n ∈ fns)
    (hk' : ∀ n ∈ known', n ∈ fns) (hc : m.body.erase.CallsInScope fns visible)
    (hs : ∀ n ∈ visible, n ∈ known ↔ n ∈ known') (hm : m.ident ∈ visible) :
    m.captures known = m.captures known' := by
  unfold captures
  rw [freeNames_congr hk hk' hc hs]
  by_cases h : m.ident ∈ known
  · rw [if_pos h, if_pos ((hs _ hm).mp h)]
  · rw [if_neg h, if_neg fun h' => h ((hs _ hm).mpr h')]

/-- Every call in the bodies of a site's run so far and in what follows it stands in the scope of its
callee, if the literals `visible` are in scope around. -/
structure Site.InScope (fns visible : List Name) (s : Site) : Prop where
  ident : s.member.ident ∈ visible
  body : s.member.body.erase.CallsInScope fns visible
  rest : s.member.rest.erase.CallsInScope fns visible
  earlier : ∀ e ∈ s.earlier, e.body.erase.CallsInScope fns visible

/-- The suffix of a site depends on the known functions among the visible literals. -/
theorem Site.InScope.suffix_congr {s : Site} (h : s.InScope fns visible)
    (hk : ∀ n ∈ known, n ∈ fns) (hk' : ∀ n ∈ known', n ∈ fns)
    (hs : ∀ n ∈ visible, n ∈ known ↔ n ∈ known') : s.suffix known = s.suffix known' := by
  unfold suffix Classification.suffixNames
  rw [Code.freeNames_congr hk hk' h.rest hs]
  have hany : s.earlier.any (fun e => s.member.ident ∈ e.freeNames known) =
      s.earlier.any (fun e => s.member.ident ∈ e.freeNames known') := by
    rw [Bool.eq_iff_iff, List.any_eq_true, List.any_eq_true]
    refine exists_congr fun e => and_congr_right fun he => ?_
    rw [Member.freeNames_congr hk hk' (h.earlier e he) hs]
  rw [hany]

/-- The literals of a block are in the scope that they make. -/
theorem Code.inScope_of_mem_ownSites {c : Code} {scope : List Name} {earlier : List Member}
    (hc : c.erase.CallsInScope fns scope) (hscope : ∀ n ∈ scope, n ∈ visible)
    (hown : ∀ m ∈ c.members, m.ident ∈ visible)
    (he : ∀ e ∈ earlier, e.body.erase.CallsInScope fns visible) {s : Site}
    (hs : s ∈ c.ownSites earlier) : s.InScope fns visible := by
  induction c generalizing scope earlier with
  | done => exact absurd hs List.not_mem_nil
  | op id ident o rest ih =>
      exact ih hc.2 hscope hown (fun _ h => absurd h List.not_mem_nil) hs
  | branch id ident cond yesBlk noBlk yes no rest _ _ ih =>
      exact ih hc.2.2 hscope hown (fun _ h => absurd h List.not_mem_nil) hs
  | fn id ident params blk body rest _ ih =>
      obtain ⟨hcb, hcr⟩ := hc
      rw [runNames_erase] at hcb hcr
      rw [members_fn] at hown
      have hrun : ∀ n ∈ ident :: rest.runNames ++ scope, n ∈ visible := by
        intro n hn
        rcases List.mem_append.mp hn with hn | hn
        · rcases List.mem_cons.mp hn with rfl | hn
          · exact hown _ List.mem_cons_self
          · rw [← map_ident_run] at hn
            obtain ⟨m, hm, rfl⟩ := List.mem_map.mp hn
            exact hown m (List.mem_cons_of_mem _ (run_subset_members hm))
        · exact hscope n hn
      have hbody : body.erase.CallsInScope fns visible := hcb.mono hrun
      rw [ownSites] at hs
      rcases List.mem_cons.mp hs with rfl | hs
      · exact ⟨hown _ List.mem_cons_self, hbody, hcr.mono hrun, he⟩
      · refine ih hcr hrun (fun m hm => hown m (List.mem_cons_of_mem _ hm)) ?_ hs
        intro e hmem
        rcases List.mem_append.mp hmem with hmem | hmem
        · exact he e hmem
        · rw [List.mem_singleton.mp hmem]
          exact hbody

end Agreement

end ClosureConversion
