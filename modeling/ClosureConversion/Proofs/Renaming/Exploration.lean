import ClosureConversion.Proofs.Exploration.Simulation

/-!
# Exploring renamed code

Renamed code mirrors the code it comes from, with every record and every block its own partner. So the
exploration takes the same course on it, and arrives at the renamed classification
(`Code.classify_rename`). Names may be shared and scopes may be violated.
-/

namespace ClosureConversion

variable (r : Name ↪ Name)

/-- The correspondence of programs that differ in their names only. -/
def Correspondence.renaming : Correspondence := ⟨r, Eq, Eq⟩

/-- A decision with its names replaced. -/
def Decision.rename (d : Decision) : Decision :=
  ⟨r d.name, d.params.map r, d.body, d.standing, d.action.rename r⟩

/-- A state of the exploration with its names replaced; the numbers of records stay. -/
def Classification.rename (c : Classification) : Classification where
  known := c.known.rename r
  closureCalls := c.closureCalls
  closures := c.closures.rename r (List.map r)
  suffixes := c.suffixes.rename r (NameSet.rename r)
  decisions := c.decisions.mapValues (Decision.rename r)

/-- A state that mirrors another with every number its own partner is the renamed one. -/
theorem Classification.Mirrors.eq_rename {c c' : Classification}
    (h : c.Mirrors (.renaming r) c') : c' = c.rename r := by
  have hcalls : c'.closureCalls = c.closureCalls := by
    apply Table.ext_get?
    intro id
    have hid := (h.calls (show (Correspondence.renaming r).records id id from rfl)).symm
    rw [Table.contains, Table.contains, ← Bool.eq_iff_iff] at hid
    -- a table of calls holds no values, so it is the set of its keys
    generalize c'.closureCalls.get? id = x, c.closureCalls.get? id = y at hid
    cases x <;> cases y <;> first | rfl | cases hid
  have hdecisions : c'.decisions = c.decisions.mapValues (Decision.rename r) := by
    apply Table.ext_get?
    intro id
    rw [Table.get?_mapValues]
    have hd := h.decisions (show (Correspondence.renaming r).records id id from rfl)
    generalize c.decisions.get? id = x, c'.decisions.get? id = x' at hd ⊢
    cases hd with
    | none => rfl
    | @some d d' hd =>
        obtain ⟨name, params, body, standing, action⟩ := d'
        obtain ⟨rfl, rfl, rfl, rfl, rfl⟩ := hd
        rfl
  obtain ⟨known, closureCalls, closures, suffixes, decisions⟩ := c'
  obtain ⟨rfl, rfl, rfl, -, -⟩ := h
  obtain rfl : closureCalls = _ := hcalls
  obtain rfl : decisions = _ := hdecisions
  rfl

namespace Code

/-- Renamed code mirrors the code it comes from. -/
theorem mirrors_rename (c : Code) : c.Mirrors (.renaming r) (c.rename r) := by
  induction c with
  | done => exact .done
  | op id ident o rest ih => exact .op ident o rfl ih
  | fn id ident params blk body rest ihb ih => exact .fn ident params rfl rfl ihb ih
  | branch id ident cond yesBlk noBlk yes no rest ihy ihn ih => exact .branch ident cond rfl ihy ihn ih

/-- The free names of a renamed body are the renamed ones, in the same order. -/
@[simp] theorem bodyFreeNames_rename (known : NameSet) (params : List Name) (body : Code) :
    (body.rename r).bodyFreeNames (known.rename r) (params.map r) =
      (body.bodyFreeNames known params).rename r :=
  (body.mirrors_rename r).bodyFreeNames_eq known params

/-- Renamed code is classified in the renamed way. -/
theorem classify_rename (optimize : Bool) (code : Code) :
    ((code.rename r).classify optimize).val = (code.classify optimize).val.rename r := by
  have hself : OneToOne (Correspondence.renaming r).records := by
    rintro x x' y y' rfl rfl
    exact Iff.rfl
  exact ((code.mirrors_rename r).classify hself optimize).eq_rename

end Code

end ClosureConversion
