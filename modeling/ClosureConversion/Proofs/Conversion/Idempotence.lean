import ClosureConversion.Classification.Explore
import ClosureConversion.Proofs.Arena.Lowering
import ClosureConversion.Proofs.Conversion.Application

/-!
# Applying a classification twice

A classification that was applied to an arena leaves each of its records in a state on which applying
it has no effect: a call is marked (`Arena.Marked`), a removed literal is linked to nothing, and a
replaced literal is the closure record of its decision (`Arena.Carried`). Each step brings its own
record into that state (`carried_applyAction`) and disturbs no other record that is in it
(`Arena.Carried.applyAction`, `Arena.Marked.applyAction`). For removals this needs orderly links: a
record that is linked to nothing is a neighbour of no other record, so that no later removal links it
in again.

`applyTo_applyTo` puts the two passes together. The arena may be any that comes about by edits; it
need not be the one that was classified.
-/

namespace ClosureConversion

namespace Arena

variable {a : Arena} {id : RecordId} {d : Decision}

/-- A record is an indirect call already. -/
def Marked (a : Arena) (id : RecordId) : Prop :=
  ∃ i, a.item? id = some i ∧ i.rhs.indirect? = some i.rhs

/-- A record is what a decision leaves of it. -/
def Carried (a : Arena) (id : RecordId) (d : Decision) : Prop :=
  ∃ i, a.item? id = some i ∧ Classification.applies d i.rhs = true ∧
    match d.action with
    | .remove => a.next? id = none ∧ a.prev? id = none
    | .makeClosure captures => i.rhs = .op (.makeClosure captures d.name)

/-- Setting the right-hand side that a record has changes nothing. -/
theorem setRhs_eq_self {i : Item} (hi : a.item? id = some i) : a.setRhs id i.rhs = a := by
  apply modify_eq_self
  intro r hr
  have hitem : r.item id = i := by simpa [item?, hr] using hi
  rw [← hitem]
  rfl

/-- The record has the right-hand side that was set. -/
theorem item?_setRhs_self {i : Item} (hi : a.item? id = some i) (rhs : Rhs BlockId) :
    (a.setRhs id rhs).item? id = some { i with rhs := rhs } := by
  rw [item?_setRhs, if_pos rfl, hi]
  rfl

/-- Setting a right-hand side leaves the other records. -/
theorem item?_setRhs_of_ne {j : RecordId} (hne : j ≠ id) (rhs : Rhs BlockId) :
    (a.setRhs id rhs).item? j = a.item? j := by
  rw [item?_setRhs, if_neg hne]

end Arena

/-- A right-hand side that was made indirect stays when it is made so again. -/
theorem Rhs.indirect?_of_indirect? {rhs rhs' : Rhs BlockId} (h : rhs.indirect? = some rhs') :
    rhs'.indirect? = some rhs' := by
  unfold Rhs.indirect? at h
  split at h
  · rw [← Option.some.inj h]
    rfl
  · cases h

namespace Classification

variable {a a' : Arena} {id : RecordId} {d : Decision} {ids : List RecordId}
  {entries : List (RecordId × Decision)} {functions functions' : Table Name Function}

/-! ## Marking calls -/

/-- What it takes to mark the first of several calls. -/
theorem markCalls_cons (h : markCalls (id :: ids) a = .ok a') :
    ∃ i rhs, a.item? id = some i ∧ i.rhs.indirect? = some rhs ∧
      markCalls ids (a.setRhs id rhs) = .ok a' := by
  cases hr : a.record? id with
  | none =>
      simp only [markCalls, Arena.requireRecord, hr] at h
      cases h
  | some r =>
      simp only [markCalls, Arena.requireRecord, hr] at h
      cases hrhs : r.rhs.indirect? with
      | none =>
          simp only [Arena.markIndirect?, hr, Option.bind_some, hrhs, Option.map_none] at h
          cases h
      | some rhs =>
          simp only [Arena.markIndirect?, hr, Option.bind_some, hrhs, Option.map_some] at h
          refine ⟨r.item id, rhs, ?_, hrhs, h⟩
          rw [Arena.item?, hr]
          rfl

/-- A call is marked by setting its right-hand side. -/
theorem marked_setRhs {i : Item} {rhs : Rhs BlockId} (hi : a.item? id = some i)
    (hrhs : i.rhs.indirect? = some rhs) : (a.setRhs id rhs).Marked id :=
  ⟨_, Arena.item?_setRhs_self hi rhs, Rhs.indirect?_of_indirect? hrhs⟩

/-- After marking, all calls are marked, and the links are as orderly as before. -/
theorem marked_markCalls (h : markCalls ids a = .ok a') (ho : a.Orderly) :
    a'.Orderly ∧ (∀ id ∈ ids, a'.Marked id) ∧ ∀ id, a.Marked id → a'.Marked id := by
  induction ids generalizing a with
  | nil =>
      obtain rfl : a = a' := Except.ok.inj h
      exact ⟨ho, by simp, fun _ hm => hm⟩
  | cons id ids ih =>
      obtain ⟨i, rhs, hi, hrhs, hrest⟩ := markCalls_cons h
      obtain ⟨ho', hall, hkeep⟩ := ih hrest (ho.setRhs id rhs)
      have hself := hkeep id (marked_setRhs hi hrhs)
      refine ⟨ho', ?_, fun j hj => ?_⟩
      · intro j hj
        rcases List.mem_cons.mp hj with rfl | hj
        · exact hself
        · exact hall j hj
      · by_cases hne : j = id
        · exact hne ▸ hself
        · obtain ⟨k, hk, hm⟩ := hj
          exact hkeep j ⟨k, (Arena.item?_setRhs_of_ne hne rhs).trans hk, hm⟩

/-- Marking marked calls changes nothing. -/
theorem markCalls_eq_self (h : ∀ id ∈ ids, a.Marked id) : markCalls ids a = .ok a := by
  induction ids with
  | nil => rfl
  | cons id ids ih =>
      obtain ⟨i, hi, hrhs⟩ := h id List.mem_cons_self
      obtain ⟨r, hr, rfl⟩ := Option.map_eq_some_iff.mp hi
      have hmark : a.markIndirect? id = some a := by
        have hind : r.rhs.indirect? = some r.rhs := hrhs
        simp only [Arena.markIndirect?, hr, Option.bind_some, hind, Option.map_some]
        exact congrArg some (Arena.setRhs_eq_self hi)
      simp only [markCalls, Arena.requireRecord, hr, hmark]
      exact ih fun j hj => h j (List.mem_cons_of_mem _ hj)

/-! ## Carrying out decisions -/

/-- What it takes to carry out the first of several decisions. -/
theorem applyDecisions_cons
    (h : applyDecisions ((id, d) :: entries) functions a = .ok (functions', a')) :
    ∃ i, a.item? id = some i ∧ applies d i.rhs = true ∧
      applyDecisions entries (functions.insert d.name ⟨d.params, d.body⟩) (applyAction a id d) =
        .ok (functions', a') := by
  cases hr : a.record? id with
  | none =>
      simp only [applyDecisions, Arena.requireRecord, hr] at h
      cases h
  | some r =>
      simp only [applyDecisions, Arena.requireRecord, hr] at h
      change (if applies d r.rhs then _ else _) = _ at h
      split at h
      next happlies =>
        refine ⟨r.item id, ?_, happlies, h⟩
        rw [Arena.item?, hr]
        rfl
      next => cases h

/-- Carrying out a decision keeps an arena orderly. -/
theorem orderly_applyAction (ho : a.Orderly) (id : RecordId) (d : Decision) :
    (applyAction a id d).Orderly := by
  unfold applyAction
  cases d.action with
  | remove => exact ho.detach id
  | makeClosure captures => exact ho.setRhs id _

/-- A decision leaves its own record carried out. -/
theorem carried_applyAction (ho : a.Orderly) {i : Item} (hi : a.item? id = some i)
    (happlies : applies d i.rhs = true) : (applyAction a id d).Carried id d := by
  unfold applyAction
  cases hact : d.action with
  | remove =>
      have hlt : id < a.records.size := by
        obtain ⟨r, hr, -⟩ := Option.map_eq_some_iff.mp hi
        exact (Array.getElem?_eq_some_iff.mp hr).1
      refine ⟨i, (a.item?_detach id id).trans hi, happlies, ?_⟩
      rw [hact]
      show (a.detach id).next? id = none ∧ (a.detach id).prev? id = none
      rw [Arena.next?_detach hlt fun _ hp => ho.prev_lt hp,
        Arena.prev?_detach hlt fun _ hn => ho.next_lt hn, if_pos rfl, if_pos rfl]
      exact ⟨rfl, rfl⟩
  | makeClosure captures =>
      refine ⟨_, Arena.item?_setRhs_self hi _, ?_, ?_⟩
      · show (d.name == d.name) = true
        simp
      · rw [hact]

/-- Carrying out a decision again changes nothing. -/
theorem applyAction_eq_self (h : a.Carried id d) : applyAction a id d = a := by
  obtain ⟨i, hi, -, hdone⟩ := h
  unfold applyAction
  cases hact : d.action with
  | remove =>
      rw [hact] at hdone
      exact Arena.detach_eq_self hdone.1 hdone.2
  | makeClosure captures =>
      rw [hact] at hdone
      have hrhs : i.rhs = .op (.makeClosure captures d.name) := hdone
      show a.setRhs id (.op (.makeClosure captures d.name)) = a
      rw [← hrhs]
      exact Arena.setRhs_eq_self hi

end Classification

namespace Arena

open Classification

variable {a : Arena} {id id' : RecordId} {d d' : Decision}

/-- Carrying out a decision on another record leaves a record as it was. -/
theorem item?_applyAction (hne : id ≠ id') : (applyAction a id' d').item? id = a.item? id := by
  unfold applyAction
  cases d'.action with
  | remove => exact item?_detach a id' id
  | makeClosure captures => exact item?_setRhs_of_ne hne _

/-- What was carried out stays so. -/
theorem Carried.applyAction (h : a.Carried id d) (ho : a.Orderly) (hne : id ≠ id') :
    (applyAction a id' d').Carried id d := by
  obtain ⟨i, hi, happlies, hdone⟩ := h
  refine ⟨i, (item?_applyAction hne).trans hi, happlies, ?_⟩
  cases hact : d.action with
  | makeClosure captures =>
      rw [hact] at hdone
      exact hdone
  | remove =>
      rw [hact] at hdone
      obtain ⟨hnext, hprev⟩ := hdone
      unfold Classification.applyAction
      cases d'.action with
      | makeClosure captures =>
          exact ⟨(next?_setRhs ..).trans hnext, (prev?_setRhs ..).trans hprev⟩
      | remove =>
          by_cases hlt : id' < a.records.size
          · -- the record is no neighbour of the one that is removed
            show (a.detach id').next? id = none ∧ (a.detach id').prev? id = none
            rw [next?_detach hlt fun _ hp => ho.prev_lt hp,
              prev?_detach hlt fun _ hn => ho.next_lt hn, if_neg hne, if_neg hne,
              if_neg (ho.prev_ne hnext id'), if_neg (ho.next_ne hprev id')]
            exact ⟨hnext, hprev⟩
          · show (a.detach id').next? id = none ∧ (a.detach id').prev? id = none
            rw [detach_of_size_le (Nat.le_of_not_lt hlt)]
            exact ⟨hnext, hprev⟩

/-- A marked call stays marked: no decision is about a call. -/
theorem Marked.applyAction (h : a.Marked id) {i : Item} (hi : a.item? id' = some i)
    (happlies : applies d' i.rhs = true) : (applyAction a id' d').Marked id := by
  obtain ⟨j, hj, hm⟩ := h
  have hne : id ≠ id' := by
    rintro rfl
    obtain rfl := Option.some.inj (hi.symm.trans hj)
    unfold applies at happlies
    split at happlies
    next hrhs =>
      rw [hrhs] at hm
      cases hm
    next hrhs =>
      rw [hrhs] at hm
      cases hm
    next => cases happlies
  exact ⟨j, (item?_applyAction hne).trans hj, hm⟩

end Arena

namespace Classification

variable {a a' : Arena} {entries : List (RecordId × Decision)}
  {functions functions' : Table Name Function}

/-- Carrying out decisions on different records leaves all of them carried out. -/
theorem carried_applyDecisions (h : applyDecisions entries functions a = .ok (functions', a'))
    (ho : a.Orderly) (hkeys : entries.Pairwise fun e e' => e.1 ≠ e'.1) :
    functions' = collect functions entries ∧ (∀ e ∈ entries, a'.Carried e.1 e.2) ∧
      (∀ id d, (∀ e ∈ entries, id ≠ e.1) → a.Carried id d → a'.Carried id d) ∧
      ∀ id, a.Marked id → a'.Marked id := by
  induction entries generalizing a functions with
  | nil =>
      obtain ⟨rfl, rfl⟩ := Prod.mk.inj (Except.ok.inj h)
      exact ⟨rfl, by simp, fun _ _ _ hc => hc, fun _ hm => hm⟩
  | cons e entries ih =>
      obtain ⟨id, d⟩ := e
      obtain ⟨hkey, hkeys'⟩ := List.pairwise_cons.mp hkeys
      obtain ⟨i, hi, happlies, hrest⟩ := applyDecisions_cons h
      obtain ⟨hfns, hall, hkeep, hmarks⟩ := ih hrest (orderly_applyAction ho id d) hkeys'
      refine ⟨hfns, ?_, ?_, ?_⟩
      · intro e he
        rcases List.mem_cons.mp he with rfl | he
        · exact hkeep id d hkey (carried_applyAction ho hi happlies)
        · exact hall e he
      · intro j d' hj hc
        obtain ⟨hne, hj⟩ := List.forall_mem_cons.mp hj
        exact hkeep j d' hj (hc.applyAction ho hne)
      · exact fun j hm => hmarks j (hm.applyAction hi happlies)

/-- Carrying out decisions again collects the same functions and changes nothing. -/
theorem applyDecisions_eq_self (h : ∀ e ∈ entries, a.Carried e.1 e.2) :
    applyDecisions entries functions a = .ok (collect functions entries, a) := by
  induction entries generalizing functions with
  | nil => rfl
  | cons e entries ih =>
      obtain ⟨id, d⟩ := e
      have hc : a.Carried id d := h _ List.mem_cons_self
      have hself := applyAction_eq_self hc
      obtain ⟨i, hi, happlies, -⟩ := hc
      obtain ⟨r, hr, rfl⟩ := Option.map_eq_some_iff.mp hi
      have hlit : applies d r.rhs = true := happlies
      simp only [applyDecisions, Arena.requireRecord, hr]
      show (if applies d r.rhs then _ else _) = _
      rw [if_pos hlit, hself]
      exact ih fun e he => h e (List.mem_cons_of_mem _ he)

end Classification

/-- **Idempotence.** What a classification made of an arena, it leaves as it is. -/
theorem applyTo_applyTo (c : Classification) {a : Arena} (ha : a.Built) {p : Program}
    (h : c.applyTo a = .ok p) : c.applyTo p.arena = .ok p := by
  unfold Classification.applyTo at h
  cases hmark : Classification.markCalls c.closureCalls.keys a with
  | error e =>
      rw [hmark] at h
      cases h
  | ok a₁ =>
      rw [hmark] at h
      change (Classification.applyDecisions c.decisions.entries ∅ a₁ >>= _) = _ at h
      cases happly : Classification.applyDecisions c.decisions.entries ∅ a₁ with
      | error e =>
          rw [happly] at h
          cases h
      | ok x =>
          obtain ⟨functions, a₂⟩ := x
          rw [happly] at h
          obtain rfl := Except.ok.inj h
          obtain ⟨ho, hmarked, -⟩ := Classification.marked_markCalls hmark ha.orderly
          obtain ⟨hfns, hcarried, -, hkeep⟩ :=
            Classification.carried_applyDecisions happly ho c.decisions.pairwise_key_ne
          have hagain := Classification.markCalls_eq_self fun id hid => hkeep id (hmarked id hid)
          show c.applyTo a₂ = _
          unfold Classification.applyTo
          rw [hagain]
          show (Classification.applyDecisions c.decisions.entries ∅ a₂ >>= _) = _
          rw [Classification.applyDecisions_eq_self hcarried, ← hfns]
          rfl

/-- Two known functions side by side, which are removed, and a closure over a name from outside. -/
def Block.neighbours : Block :=
  .fn "p" ["x"] (.op "r" (.ref "x") .done) <|
  .fn "q" ["y"] (.op "s" (.app "p" ["y"] false) .done) <|
  .op "n" (.int 1) <|
  .fn "h" [] (.op "t" (.ref "n") .done) <|
  .op "c" (.app "h" [] false) <|
  .op "d" (.app "q" ["n"] false) .done

/-- The arena of `Block.neighbours` with one instruction more, and with the end of its entry block
detached. -/
def Arena.neighbours : Arena :=
  ((ofBlock Block.neighbours).edit (.push entry "e" (.op .unit))).edit (.detach 1)

/-- Removing two neighbours and making a closure is done once, also where the entry block has lost its
end. -/
theorem applyTo_applyTo_sample :
    ∃ c p, (Arena.ofBlock Block.neighbours).classify true = .ok c ∧
      c.applyTo Arena.neighbours = .ok p ∧ c.applyTo p.arena = .ok p := by
  have hok : (((Arena.ofBlock Block.neighbours).classify true).bind
      (·.applyTo Arena.neighbours)).toOption.isSome = true := by decide +kernel
  cases hc : (Arena.ofBlock Block.neighbours).classify true with
  | error e =>
      rw [hc] at hok
      cases hok
  | ok c =>
      rw [hc] at hok
      change (c.applyTo Arena.neighbours).toOption.isSome = true at hok
      cases hp : c.applyTo Arena.neighbours with
      | error e =>
          rw [hp] at hok
          cases hok
      | ok p =>
          have hb : Arena.neighbours.Built := ((Arena.built_ofBlock _).edit _).edit _
          exact ⟨c, p, rfl, hp, applyTo_applyTo c hb hp⟩

end ClosureConversion
