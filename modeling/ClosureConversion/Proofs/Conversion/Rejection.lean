import ClosureConversion.Proofs.Conversion.Idempotence

/-!
# When a classification cannot be applied

Applying a classification checks each record right before it edits it. The outcome is the same as if all
checks were made first, on the arena as it is handed in: marking a call changes neither what is a call
nor what a decision can be carried out on (`Arena.callFault?_setRhs`, `Arena.decisionFault?_setRhs`), and
carrying out a decision touches no other decided record (`Arena.decisionFault?_applyAction`).

* `Classification.firstFault?`: what these checks find first, calls before decisions.
* `Classification.applyTo_cases`: applying fails with that fault, and succeeds if there is none.
* `applyTo_outcome`: success and both faults by what the records are. Tables are in the order of records,
  so a fault is about the smallest record that has one.

A fault about a decision names the decided function and not the record that was found in its place
(`applyTo_names_decision`).
-/

namespace ClosureConversion

/-! ## Checks on the arena as it is -/

namespace Arena

/-- What is wrong with a record whose right-hand side should pass a test. -/
def faultAt? (a : Arena) (id : RecordId) (passes : Rhs BlockId → Bool) (fault : Item → Fault) :
    Option Fault :=
  match a.item? id with
  | none => some (.dangling id)
  | some i => if passes i.rhs then none else some (fault i)

/-- What is wrong with a record on which a call is to be marked. -/
def callFault? (a : Arena) (id : RecordId) : Option Fault :=
  a.faultAt? id (·.indirect?.isSome) fun i => .notApplication id i.ident i.rhs.kind

/-- What is wrong with a record on which a decision is to be carried out. -/
def decisionFault? (a : Arena) (e : RecordId × Decision) : Option Fault :=
  a.faultAt? e.1 (Classification.applies e.2) fun i => .notFunction e.1 e.2.name i.rhs.kind

variable {a : Arena} {id : RecordId} {passes : Rhs BlockId → Bool} {fault : Item → Fault}

/-- A record is without fault if it exists and passes. -/
theorem faultAt?_eq_none_iff :
    a.faultAt? id passes fault = none ↔ ∃ i, a.item? id = some i ∧ passes i.rhs = true := by
  unfold faultAt?
  cases a.item? id with
  | none => simp
  | some i => simp

/-- A record of the arena is at fault if it does not pass. -/
theorem faultAt?_eq_some_iff (hid : id < a.records.size) {f : Fault} :
    a.faultAt? id passes fault = some f ↔
      (¬∃ i, a.item? id = some i ∧ passes i.rhs = true) ∧
        ∃ i, a.item? id = some i ∧ f = fault i := by
  obtain ⟨r, hr⟩ := exists_record? hid
  have hi : a.item? id = some (r.item id) := by rw [item?, hr, Option.map_some]
  simp only [faultAt?, hi, Option.some.injEq, exists_eq_left']
  split
  next hpass => simp [hpass]
  next hpass => simp [hpass, eq_comm (a := f)]

end Arena

/-- The first thing that is wrong with the records of a classification, calls before decisions. -/
def Classification.firstFault? (c : Classification) (a : Arena) : Option Fault :=
  (c.closureCalls.keys.findSome? a.callFault?).or (c.decisions.entries.findSome? a.decisionFault?)

/-- Only calls can be made indirect. -/
theorem Rhs.indirect?_eq_some_iff {rhs rhs' : Rhs BlockId} : rhs.indirect? = some rhs' ↔
    ∃ callee args indirect, rhs = .op (.app callee args indirect) ∧
      rhs' = .op (.app callee args true) := by
  constructor
  · intro h
    unfold indirect? at h
    split at h
    next callee args indirect => exact ⟨callee, args, indirect, rfl, (Option.some.inj h).symm⟩
    next => cases h
  · rintro ⟨callee, args, indirect, rfl, rfl⟩
    rfl

namespace Arena

variable {a : Arena} {id : RecordId} {i : Item} {rhs : Rhs BlockId} {d : Decision}

/-- Marking a call changes no check of a call. -/
theorem callFault?_setRhs (hi : a.item? id = some i) (hrhs : i.rhs.indirect? = some rhs)
    (j : RecordId) : (a.setRhs id rhs).callFault? j = a.callFault? j := by
  unfold callFault? faultAt?
  by_cases hj : j = id
  · simp only [hj, item?_setRhs_self hi, hi, hrhs, Rhs.indirect?_of_indirect? hrhs,
      Option.isSome_some, if_true]
  · rw [item?_setRhs_of_ne hj]

/-- Nor does it change a check of a decision: a call is nothing that a decision can be carried out on,
marked or not. -/
theorem decisionFault?_setRhs (hi : a.item? id = some i) (hrhs : i.rhs.indirect? = some rhs)
    (e : RecordId × Decision) : (a.setRhs id rhs).decisionFault? e = a.decisionFault? e := by
  unfold decisionFault? faultAt?
  by_cases hj : e.1 = id
  · obtain ⟨callee, args, indirect, hcall, rfl⟩ := Rhs.indirect?_eq_some_iff.mp hrhs
    simp only [hj, item?_setRhs_self hi, hi, hcall]
    rfl
  · rw [item?_setRhs_of_ne hj]

/-- Carrying out a decision changes no check of a decision on another record. -/
theorem decisionFault?_applyAction {e : RecordId × Decision} (hne : e.1 ≠ id) :
    (Classification.applyAction a id d).decisionFault? e = a.decisionFault? e := by
  unfold decisionFault? faultAt?
  rw [item?_applyAction hne]

end Arena

/-! ## The outcome of a run -/

namespace Classification

variable {a : Arena} {ids : List RecordId} {entries : List (RecordId × Decision)}
  {functions : Table Name Function}

/-- Calls are marked one after the other, until one is at fault. -/
theorem markCalls_cons_eq (id : RecordId) (ids : List RecordId) (a : Arena) :
    markCalls (id :: ids) a =
      match a.item? id with
      | none => .error (.dangling id)
      | some i =>
        match i.rhs.indirect? with
        | none => .error (.notApplication id i.ident i.rhs.kind)
        | some rhs => markCalls ids (a.setRhs id rhs) := by
  rw [markCalls, Arena.requireRecord, Arena.item?]
  cases hr : a.record? id with
  | none => rfl
  | some r =>
      simp only [Arena.markIndirect?, hr, Option.bind_some, Option.map_some]
      show _ = match r.rhs.indirect? with
        | none => Except.error (Fault.notApplication id r.ident r.rhs.kind)
        | some rhs => markCalls ids (a.setRhs id rhs)
      cases r.rhs.indirect? <;> rfl

/-- Marking calls fails with the first fault that the arena had before. If it succeeds, decisions are
checked as before. -/
theorem markCalls_cases (ids : List RecordId) (a : Arena) :
    (∃ f, ids.findSome? a.callFault? = some f ∧ markCalls ids a = .error f) ∨
      (ids.findSome? a.callFault? = none ∧
        ∃ a', markCalls ids a = .ok a' ∧ a'.decisionFault? = a.decisionFault?) := by
  induction ids generalizing a with
  | nil => exact .inr ⟨rfl, a, rfl, rfl⟩
  | cons id ids ih =>
      rw [List.findSome?_cons, markCalls_cons_eq, Arena.callFault?, Arena.faultAt?]
      cases hi : a.item? id with
      | none => exact .inl ⟨_, rfl, rfl⟩
      | some i =>
          cases hrhs : i.rhs.indirect? with
          | none =>
              simp only [hrhs, Option.isSome_none, Bool.false_eq_true, if_false]
              exact .inl ⟨_, rfl, rfl⟩
          | some rhs =>
              have hrest := ih (a.setRhs id rhs)
              rw [funext (Arena.callFault?_setRhs hi hrhs),
                funext (Arena.decisionFault?_setRhs hi hrhs)] at hrest
              simp only [hrhs, Option.isSome_some, if_true]
              exact hrest

/-- Decisions are carried out one after the other, until one is at fault. -/
theorem applyDecisions_cons_eq (id : RecordId) (d : Decision) (entries : List (RecordId × Decision))
    (functions : Table Name Function) (a : Arena) :
    applyDecisions ((id, d) :: entries) functions a =
      match a.decisionFault? (id, d) with
      | some f => .error f
      | none => applyDecisions entries (functions.insert d.name ⟨d.params, d.body⟩)
          (applyAction a id d) := by
  rw [applyDecisions, Arena.requireRecord, Arena.decisionFault?, Arena.faultAt?, Arena.item?]
  cases hr : a.record? id with
  | none => rfl
  | some r =>
      show (if applies d r.rhs then _ else _) = _
      simp only [Option.map_some, Record.item]
      split <;> rfl

/-- Carrying out decisions on different records fails with the first fault that the arena `a` had before.
The induction is over the decisions left: on their records the arena `a'` on the way is checked like
`a`. -/
theorem applyDecisions_cases {a' : Arena} (hkeys : entries.Pairwise fun e e' => e.1 ≠ e'.1)
    (hsame : ∀ e ∈ entries, a'.decisionFault? e = a.decisionFault? e)
    (functions : Table Name Function) :
    (∃ f, entries.findSome? a.decisionFault? = some f ∧
      applyDecisions entries functions a' = .error f) ∨
      (entries.findSome? a.decisionFault? = none ∧
        ∃ result, applyDecisions entries functions a' = .ok result) := by
  induction entries generalizing functions a' with
  | nil => exact .inr ⟨rfl, _, rfl⟩
  | cons e entries ih =>
      obtain ⟨id, d⟩ := e
      obtain ⟨hkey, hkeys⟩ := List.pairwise_cons.mp hkeys
      obtain ⟨hhead, hsame⟩ := List.forall_mem_cons.mp hsame
      rw [List.findSome?_cons, applyDecisions_cons_eq, hhead]
      cases a.decisionFault? (id, d) with
      | some f => exact .inl ⟨f, rfl, rfl⟩
      | none =>
          refine ih hkeys (fun e he => ?_) _
          rw [Arena.decisionFault?_applyAction (hkey e he).symm, hsame e he]

/-- Applying a classification fails with the first fault of the arena that is handed in, and succeeds if
there is none. -/
theorem applyTo_cases (c : Classification) (a : Arena) :
    (∃ f, c.firstFault? a = some f ∧ c.applyTo a = .error f) ∨
      (c.firstFault? a = none ∧ ∃ p, c.applyTo a = .ok p) := by
  unfold firstFault? applyTo
  rcases markCalls_cases c.closureCalls.keys a with ⟨f, hf, hmark⟩ | ⟨hnone, a', hmark, hsame⟩
  · rw [hf, hmark]
    exact .inl ⟨f, rfl, rfl⟩
  · rw [hnone, hmark, Option.none_or]
    rcases applyDecisions_cases c.decisions.pairwise_key_ne (fun e _ => congrFun hsame e) ∅ with
      ⟨f, hf, happly⟩ | ⟨hnone, result, happly⟩
    · refine .inl ⟨f, hf, ?_⟩
      show (applyDecisions c.decisions.entries ∅ a' >>= _) = _
      rw [happly]
      rfl
    · refine .inr ⟨hnone, ⟨result.1, c.closures, result.2⟩, ?_⟩
      show (applyDecisions c.decisions.entries ∅ a' >>= _) = _
      rw [happly]
      rfl

end Classification

/-! ## The outcome by what the records are -/

/-- In a list with increasing keys, the first answer is the one at the smallest key that has an answer. -/
theorem findSome?_eq_some_iff_smallest {α β : Type} {l : List α} {key : α → Nat} {f : α → Option β}
    (hs : l.Pairwise fun x y => key x < key y) {y : β} :
    l.findSome? f = some y ↔
      ∃ x ∈ l, f x = some y ∧ ∀ x' ∈ l, f x' ≠ none → key x ≤ key x' := by
  rw [List.findSome?_eq_some_iff]
  constructor
  · rintro ⟨pre, x, post, rfl, hx, hpre⟩
    refine ⟨x, List.mem_append_right _ List.mem_cons_self, hx, fun x' hx' hsome => ?_⟩
    rcases List.mem_append.mp hx' with hx' | hx'
    · exact absurd (hpre x' hx') hsome
    rcases List.mem_cons.mp hx' with rfl | hx'
    · exact Nat.le_refl _
    · exact Nat.le_of_lt ((List.pairwise_cons.mp (List.pairwise_append.mp hs).2.1).1 x' hx')
  · rintro ⟨x, hx, hfx, hleast⟩
    obtain ⟨pre, post, rfl⟩ := List.append_of_mem hx
    refine ⟨pre, x, post, rfl, hfx, fun x' hx' => ?_⟩
    by_contra hsome
    have hle := hleast x' (List.mem_append_left _ hx') hsome
    have hlt := (List.pairwise_append.mp hs).2.2 x' hx' x List.mem_cons_self
    omega

/-- What can be made indirect is a call. -/
theorem Rhs.isSome_indirect?_iff {rhs : Rhs BlockId} : rhs.indirect?.isSome = true ↔
    ∃ callee args indirect, rhs = .op (.app callee args indirect) := by
  simp only [Option.isSome_iff_exists, indirect?_eq_some_iff]
  constructor
  · rintro ⟨_, callee, args, indirect, hrhs, -⟩
    exact ⟨callee, args, indirect, hrhs⟩
  · rintro ⟨callee, args, indirect, hrhs⟩
    exact ⟨_, callee, args, indirect, hrhs, rfl⟩

/-- A decision applies to literals and to closure constructions of its own function. -/
theorem Classification.applies_iff {d : Decision} {rhs : Rhs BlockId} : applies d rhs = true ↔
    (∃ params body, rhs = .fn params body) ∨ ∃ captures, rhs = .op (.makeClosure captures d.name) := by
  unfold applies
  split
  next params body => simp
  next captures target => simp
  next hfn hmake =>
    refine iff_of_false Bool.false_ne_true ?_
    rintro (⟨params, body, rfl⟩ | ⟨captures, rfl⟩)
    · exact hfn _ _ rfl
    · exact hmake _ _ rfl

namespace Arena

/-- A record is a call. -/
def IsCall (a : Arena) (id : RecordId) : Prop :=
  ∃ i, a.item? id = some i ∧ ∃ callee args indirect, i.rhs = .op (.app callee args indirect)

/-- A record is what a decision can be carried out on: a function literal, or a closure construction for
the decided function. -/
def Accepts (a : Arena) (id : RecordId) (d : Decision) : Prop :=
  ∃ i, a.item? id = some i ∧
    ((∃ params body, i.rhs = .fn params body) ∨ ∃ captures, i.rhs = .op (.makeClosure captures d.name))

variable {a : Arena} {id : RecordId} {d : Decision} {f : Fault}

/-- A call is without fault if the record is a call. -/
theorem callFault?_eq_none_iff : a.callFault? id = none ↔ a.IsCall id := by
  rw [callFault?, faultAt?_eq_none_iff]
  simp only [IsCall, Rhs.isSome_indirect?_iff]

/-- The fault of a call names what was found in its place. -/
theorem callFault?_eq_some_iff (hid : id < a.records.size) : a.callFault? id = some f ↔
    ¬a.IsCall id ∧ ∃ i, a.item? id = some i ∧ f = .notApplication id i.ident i.rhs.kind := by
  rw [callFault?, faultAt?_eq_some_iff hid, ← callFault?_eq_none_iff, callFault?,
    faultAt?_eq_none_iff]

/-- A decision is without fault if the record accepts it. -/
theorem decisionFault?_eq_none_iff : a.decisionFault? (id, d) = none ↔ a.Accepts id d := by
  rw [decisionFault?, faultAt?_eq_none_iff]
  simp only [Accepts, Classification.applies_iff]

/-- The fault of a decision names what was found in its place. -/
theorem decisionFault?_eq_some_iff (hid : id < a.records.size) : a.decisionFault? (id, d) = some f ↔
    ¬a.Accepts id d ∧ ∃ i, a.item? id = some i ∧ f = .notFunction id d.name i.rhs.kind := by
  rw [decisionFault?, faultAt?_eq_some_iff hid, ← decisionFault?_eq_none_iff, decisionFault?,
    faultAt?_eq_none_iff]

end Arena

namespace Classification

/-- All records that a classification is about exist in an arena. -/
structure Within (c : Classification) (a : Arena) : Prop where
  call : ∀ id, c.closureCalls.contains id = true → id < a.records.size
  decision : ∀ id d, c.decisions.get? id = some d → id < a.records.size

/-- The records of calls that are no calls in an arena. -/
def strayCalls (c : Classification) (a : Arena) : Set RecordId :=
  {id | c.closureCalls.contains id = true ∧ ¬a.IsCall id}

/-- The decided records on which an arena has something else. -/
def strayDecisions (c : Classification) (a : Arena) : Set RecordId :=
  {id | ∃ d, c.decisions.get? id = some d ∧ ¬a.Accepts id d}

variable {c : Classification} {a : Arena} {f : Fault}

/-- The calls through closures are the keys of their table. -/
theorem mem_keys_closureCalls {id : RecordId} :
    id ∈ c.closureCalls.keys ↔ c.closureCalls.contains id = true := by
  rw [Table.mem_keys_iff, Table.contains_iff]

/-- The fault of the calls is about the smallest stray one. -/
theorem findSome?_callFault?_iff (h : c.Within a) :
    c.closureCalls.keys.findSome? a.callFault? = some f ↔
      ∃ id i, IsLeast (c.strayCalls a) id ∧ a.item? id = some i ∧
        f = .notApplication id i.ident i.rhs.kind := by
  have hsorted : c.closureCalls.keys.Pairwise (· < ·) :=
    List.pairwise_map.mpr (c.closureCalls.sorted.imp Nat.compare_eq_lt.mp)
  rw [findSome?_eq_some_iff_smallest hsorted]
  simp only [mem_keys_closureCalls, Ne, Arena.callFault?_eq_none_iff]
  constructor
  · rintro ⟨id, hid, hf, hleast⟩
    obtain ⟨hno, i, hi, rfl⟩ := (Arena.callFault?_eq_some_iff (h.call id hid)).mp hf
    exact ⟨id, i, ⟨⟨hid, hno⟩, fun j hj => hleast j hj.1 hj.2⟩, hi, rfl⟩
  · rintro ⟨id, i, ⟨⟨hid, hno⟩, hleast⟩, hi, rfl⟩
    refine ⟨id, hid, ?_, fun j hj hno => hleast ⟨hj, hno⟩⟩
    exact (Arena.callFault?_eq_some_iff (h.call id hid)).mpr ⟨hno, i, hi, rfl⟩

/-- The fault of the decisions is about the smallest stray one, and names the decided function. -/
theorem findSome?_decisionFault?_iff (h : c.Within a) :
    c.decisions.entries.findSome? a.decisionFault? = some f ↔
      ∃ id d i, IsLeast (c.strayDecisions a) id ∧ c.decisions.get? id = some d ∧
        a.item? id = some i ∧ f = .notFunction id d.name i.rhs.kind := by
  have hsorted : c.decisions.entries.Pairwise fun e e' => e.1 < e'.1 :=
    c.decisions.sorted.imp Nat.compare_eq_lt.mp
  rw [findSome?_eq_some_iff_smallest hsorted]
  simp only [Prod.exists, Prod.forall, Table.mem_entries_iff, Ne, Arena.decisionFault?_eq_none_iff]
  constructor
  · rintro ⟨id, d, hd, hf, hleast⟩
    obtain ⟨hno, i, hi, rfl⟩ := (Arena.decisionFault?_eq_some_iff (h.decision id d hd)).mp hf
    exact ⟨id, d, i, ⟨⟨d, hd, hno⟩, fun j ⟨d', hd', hno'⟩ => hleast j d' hd' hno'⟩, hd, hi, rfl⟩
  · rintro ⟨id, d, i, ⟨⟨d', hd', hno⟩, hleast⟩, hd, hi, rfl⟩
    obtain rfl := Option.some.inj (hd'.symm.trans hd)
    refine ⟨id, d', hd, ?_, fun j e he hno => hleast ⟨e, he, hno⟩⟩
    exact (Arena.decisionFault?_eq_some_iff (h.decision id d' hd)).mpr ⟨hno, i, hi, rfl⟩

/-- No call is at fault if none is stray. -/
theorem findSome?_callFault?_eq_none_iff :
    c.closureCalls.keys.findSome? a.callFault? = none ↔ c.strayCalls a = ∅ := by
  simp [strayCalls, Set.eq_empty_iff_forall_notMem, List.findSome?_eq_none_iff,
    mem_keys_closureCalls, Arena.callFault?_eq_none_iff]

/-- No decision is at fault if none is stray. -/
theorem findSome?_decisionFault?_eq_none_iff :
    c.decisions.entries.findSome? a.decisionFault? = none ↔ c.strayDecisions a = ∅ := by
  simp [strayDecisions, Set.eq_empty_iff_forall_notMem, List.findSome?_eq_none_iff,
    Table.mem_entries_iff, Arena.decisionFault?_eq_none_iff]

/-- Conversion fails with the first fault. -/
theorem applyTo_eq_error_iff : c.applyTo a = .error f ↔ c.firstFault? a = some f := by
  rcases c.applyTo_cases a with ⟨f', hfault, herror⟩ | ⟨hnone, p, hp⟩
  · rw [hfault, herror, Except.error.injEq, Option.some.injEq]
  · rw [hnone, hp]
    simp

/-- Conversion succeeds if there is no fault. -/
theorem exists_applyTo_eq_ok_iff : (∃ p, c.applyTo a = .ok p) ↔ c.firstFault? a = none := by
  rcases c.applyTo_cases a with ⟨f, hfault, herror⟩ | ⟨hnone, p, hp⟩
  · rw [hfault, herror]
    simp
  · exact iff_of_true ⟨p, hp⟩ hnone

end Classification

/-- **Rejection.** Where the records of a classification exist, it can be applied exactly if its calls are
calls and each decided record is a function literal or a closure construction for the decided function.
Otherwise the fault is about the smallest call that is none, whatever the decisions; and, if all calls
are calls, about the smallest decided record that is something else. What was found is the record of the
arena that is handed in; a fault about a decision names the function that was decided. -/
theorem applyTo_outcome (c : Classification) {a : Arena} (h : c.Within a) :
    ((∃ p, c.applyTo a = .ok p) ↔
      (∀ id, c.closureCalls.contains id = true → a.IsCall id) ∧
        ∀ id d, c.decisions.get? id = some d → a.Accepts id d) ∧
    ∀ f, c.applyTo a = .error f ↔
      (∃ id i, IsLeast (c.strayCalls a) id ∧ a.item? id = some i ∧
        f = .notApplication id i.ident i.rhs.kind) ∨
      (c.strayCalls a = ∅ ∧ ∃ id d i, IsLeast (c.strayDecisions a) id ∧
        c.decisions.get? id = some d ∧ a.item? id = some i ∧
        f = .notFunction id d.name i.rhs.kind) := by
  constructor
  · rw [Classification.exists_applyTo_eq_ok_iff, Classification.firstFault?, Option.or_eq_none_iff,
      Classification.findSome?_callFault?_eq_none_iff,
      Classification.findSome?_decisionFault?_eq_none_iff]
    simp [Classification.strayCalls, Classification.strayDecisions, Set.eq_empty_iff_forall_notMem]
  · intro f
    rw [Classification.applyTo_eq_error_iff, Classification.firstFault?, Option.or_eq_some_iff,
      Classification.findSome?_callFault?_iff h, Classification.findSome?_callFault?_eq_none_iff,
      Classification.findSome?_decisionFault?_iff h]

/-- A classification is within an arena if the listed records are. -/
theorem Classification.within_of_keys {c : Classification} {a : Arena}
    (hcalls : ∀ id ∈ c.closureCalls.keys, id < a.records.size)
    (hdecisions : ∀ id ∈ c.decisions.keys, id < a.records.size) : c.Within a where
  call id hid := hcalls id (mem_keys_closureCalls.mpr hid)
  decision id d hd := hdecisions id (Table.mem_keys_iff.mpr ⟨d, hd⟩)

/-- The arena of `Block.neighbours` with its second and its third literal turned into something else. -/
def Arena.outdated : Arena :=
  ((ofBlock Block.neighbours).edit (.setRhs 14 (.op (.int 0)))).edit (.setRhs 9 (.op .unit))

/-- The call is marked and the first literal removed before the second literal is missed. -/
theorem applyTo_outcome_outdated :
    ∃ c, (Arena.ofBlock Block.neighbours).classify true = .ok c ∧ c.Within Arena.outdated ∧
      c.applyTo Arena.outdated = .error (.notFunction 9 "q" "unit") ∧
      c.strayCalls Arena.outdated = ∅ ∧ IsLeast (c.strayDecisions Arena.outdated) 9 := by
  have hcomputed : ((Arena.ofBlock Block.neighbours).classify true).map
      (fun c => (c.closureCalls.keys, c.decisions.keys, c.applyTo Arena.outdated)) =
      .ok ([15], [5, 9, 14], .error (.notFunction 9 "q" "unit")) := by decide +kernel
  cases hc : (Arena.ofBlock Block.neighbours).classify true with
  | error e =>
      rw [hc] at hcomputed
      cases hcomputed
  | ok c =>
      rw [hc] at hcomputed
      obtain ⟨hcalls, hrest⟩ := Prod.mk.inj (Except.ok.inj hcomputed)
      obtain ⟨hdecisions, herror⟩ := Prod.mk.inj hrest
      have hin : c.Within Arena.outdated := by
        refine Classification.within_of_keys ?_ ?_
        · rw [hcalls]
          decide
        · rw [hdecisions]
          decide
      refine ⟨c, rfl, hin, herror, ?_⟩
      rcases ((applyTo_outcome c hin).2 _).mp herror with
        ⟨id, i, -, -, hf⟩ | ⟨hnone, id, d, i, hleast, -, -, hf⟩
      · cases hf
      · obtain ⟨rfl, -, -⟩ := Fault.notFunction.inj hf
        exact ⟨hnone, hleast⟩

/-- An empty block besides the entry, and one instruction, which has record 4. -/
def Arena.single (ident : Name) (rhs : Rhs BlockId) : Arena :=
  (Arena.empty.edit .newBlock).edit (.push entry ident rhs)

/-- A fault about a decision need not name the record it is about: here that record binds `x`, and the
fault names `f`. -/
theorem applyTo_names_decision :
    ∃ c, (Arena.single "f" (.fn [] 1)).classify true = .ok c ∧
      (Arena.single "x" (.op (.int 0))).Built ∧ c.Within (Arena.single "x" (.op (.int 0))) ∧
      c.applyTo (Arena.single "x" (.op (.int 0))) = .error (.notFunction 4 "f" "int") ∧
      ¬∃ i, (Arena.single "x" (.op (.int 0))).item? 4 = some i ∧ i.ident = "f" := by
  have hcomputed : ((Arena.single "f" (.fn [] 1)).classify true).map
      (fun c => (c.closureCalls.keys, c.decisions.keys,
        c.applyTo (Arena.single "x" (.op (.int 0))))) =
      .ok ([], [4], .error (.notFunction 4 "f" "int")) := by decide +kernel
  cases hc : (Arena.single "f" (.fn [] 1)).classify true with
  | error e =>
      rw [hc] at hcomputed
      cases hcomputed
  | ok c =>
      rw [hc] at hcomputed
      obtain ⟨hcalls, hrest⟩ := Prod.mk.inj (Except.ok.inj hcomputed)
      obtain ⟨hdecisions, herror⟩ := Prod.mk.inj hrest
      refine ⟨c, rfl, (Arena.Built.empty.edit _).edit _, ?_, herror, ?_⟩
      · refine Classification.within_of_keys ?_ ?_
        · rw [hcalls]
          decide
        · rw [hdecisions]
          decide
      · rintro ⟨i, hi, hident⟩
        have hitem : (Arena.single "x" (.op (.int 0))).item? 4 = some ⟨4, "x", .op (.int 0)⟩ := by
          decide
        obtain rfl := Option.some.inj (hitem.symm.trans hi)
        exact absurd hident (by decide)

end ClosureConversion
