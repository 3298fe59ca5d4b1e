import ClosureConversion.Proofs.Verification

/-!
# Changing all records of an arena

`Arena.mapRecords` changes each record, knowing its number. If links stay as they are, a chain of the
changed arena is the chain of the old one with its records changed (`list_mapRecords`). If conditionals
also keep the blocks that they lead to, the verifier meets the same instructions, changed
(`branchList_mapRecords`).
-/

namespace ClosureConversion

/-- A traversal of changed arguments gives changed results, if each step does. -/
theorem mapM_map_except {α α' β β' ε : Type} {f : α → Except ε β} {f' : α' → Except ε β'}
    {h : α → α'} {k : β → β'} {l : List α} (hf : ∀ x ∈ l, f' (h x) = (f x).map k) :
    (l.map h).mapM f' = (l.mapM f).map (List.map k) := by
  induction l with
  | nil => rfl
  | cons x l ih =>
      rw [List.map_cons, List.mapM_cons, List.mapM_cons, hf x List.mem_cons_self,
        ih fun y hy => hf y (List.mem_cons_of_mem _ hy)]
      cases f x with
      | error e => rfl
      | ok y =>
          cases l.mapM f with
          | error e => rfl
          | ok ys => rfl

/-- The two blocks of a conditional. -/
def Rhs.branches? {β : Type} : Rhs β → Option (β × β)
  | .branch _ yes no => some (yes, no)
  | _ => none

namespace Arena

variable {a : Arena} {g : RecordId → Record → Record}

/-- Change each record, knowing its number. -/
def mapRecords (g : RecordId → Record → Record) (a : Arena) : Arena :=
  { a with records := a.records.mapIdx g }

/-- Changing records leaves the blocks. -/
@[simp] theorem bounds?_mapRecords (g : RecordId → Record → Record) (a : Arena) (blk : BlockId) :
    (a.mapRecords g).bounds? blk = a.bounds? blk := rfl

/-- Changing records leaves the number of blocks. -/
@[simp] theorem numBlocks_mapRecords (g : RecordId → Record → Record) (a : Arena) :
    (a.mapRecords g).numBlocks = a.numBlocks := rfl

/-- Changing records leaves their number. -/
@[simp] theorem size_mapRecords (g : RecordId → Record → Record) (a : Arena) :
    (a.mapRecords g).records.size = a.records.size := Array.size_mapIdx

/-- A record of the changed arena is the changed record. -/
@[simp] theorem record?_mapRecords (g : RecordId → Record → Record) (a : Arena) (id : RecordId) :
    (a.mapRecords g).record? id = (a.record? id).map (g id) := Array.getElem?_mapIdx

/-- Arenas with the same blocks and the same records are the same. -/
theorem ext_record? {a a' : Arena} (hb : a.blocks = a'.blocks)
    (hr : ∀ id, a.record? id = a'.record? id) : a = a' := by
  obtain ⟨records, blocks⟩ := a
  obtain ⟨records', blocks'⟩ := a'
  obtain rfl : blocks = blocks' := hb
  obtain rfl : records = records' := Array.ext_getElem? hr
  rfl

/-- A record with its number, changed. -/
def changed (g : RecordId → Record → Record) (x : RecordId × Record) : RecordId × Record :=
  (x.1, g x.1 x.2)

/-- A change that leaves the successors leaves the chains. -/
theorem chain_mapRecords (hg : ∀ id r, (g id r).next = r.next) (fuel : Nat) (id : RecordId) :
    (a.mapRecords g).chain fuel id = (a.chain fuel id).map (changed g) := by
  induction fuel generalizing id with
  | zero => rfl
  | succ fuel ih =>
      simp only [chain, record?_mapRecords]
      cases a.record? id with
      | none => rfl
      | some r =>
          simp only [Option.map_some, hg]
          cases r.next with
          | none => rfl
          | some next => rw [List.map_cons, ← ih]; rfl

/-- A change that leaves the successors leaves the lists of blocks. -/
theorem list_mapRecords (hg : ∀ id r, (g id r).next = r.next) (blk : BlockId) :
    (a.mapRecords g).list blk = (a.list blk).map (changed g) := by
  have hfirst : (a.mapRecords g).first? blk = a.first? blk := by
    simp only [first?, bounds?_mapRecords]
    cases a.bounds? blk with
    | none => rfl
    | some b =>
        simp only [Option.bind_eq_bind, Option.bind_some, record?_mapRecords]
        cases a.record? b.top with
        | none => rfl
        | some r => simp only [Option.map_some, Option.bind_some, hg]
  unfold list
  rw [hfirst]
  cases a.first? blk with
  | none => rfl
  | some id =>
      simp only [listFrom, size_mapRecords]
      exact chain_mapRecords hg _ id

/-- What an instruction spreads to depends on the blocks of its conditional only. -/
theorem spread_eq (lead : BlockId → Except Fault (List (RecordId × Record)))
    (x : RecordId × Record) :
    spread lead x =
      match x.2.rhs.branches? with
      | some (yes, no) => do return x :: (← lead yes) ++ (← lead no)
      | none => return [x] := by
  unfold spread
  cases x.2.rhs <;> rfl

/-- The verifier meets the same instructions, changed. -/
theorem branchList_mapRecords (hg : ∀ id r, (g id r).next = r.next)
    (hb : ∀ id r, (g id r).rhs.branches? = r.rhs.branches?) (fuel : Nat) (blk : BlockId) :
    (a.mapRecords g).branchList fuel blk = (a.branchList fuel blk).map (List.map (changed g)) := by
  induction fuel generalizing blk with
  | zero => rfl
  | succ fuel ih =>
      have hspread : ∀ x : RecordId × Record,
          spread ((a.mapRecords g).branchList fuel) (changed g x) =
            (spread (a.branchList fuel) x).map (List.map (changed g)) := by
        intro x
        rw [spread_eq, spread_eq, changed, hb]
        cases x.2.rhs.branches? with
        | none => rfl
        | some yn =>
            simp only [ih]
            cases a.branchList fuel yn.1 with
            | error e => rfl
            | ok ly =>
                cases a.branchList fuel yn.2 with
                | error e => rfl
                | ok ln =>
                    refine congrArg Except.ok ?_
                    rw [List.map_append, List.map_cons]
                    rfl
      rw [branchList_succ, branchList_succ, list_mapRecords hg,
        mapM_map_except fun x _ => hspread x]
      simp only [requireBlock, bounds?_mapRecords]
      cases a.bounds? blk with
      | none => rfl
      | some b =>
          cases (a.list blk).mapM (spread (a.branchList fuel)) with
          | error e => rfl
          | ok ls => exact congrArg Except.ok List.map_flatten.symm

end Arena

end ClosureConversion
