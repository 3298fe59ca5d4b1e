import ClosureConversion.Program
import ClosureConversion.Proofs.Arena.Paths
import ClosureConversion.Proofs.Names

/-!
# Applying a classification

What `Classification.applyTo` does to the items of an arena. Each item is treated by itself: calls on
record are marked (`Classification.mark`), and decisions are carried out (`Classification.carryOut`).
The order in which the tables list them does not matter, because no two of them concern one record.

`Classification.applyTo_spec` says that it succeeds where the records are what they should be, and what
the program is.
-/

namespace ClosureConversion

/-- A call as an indirect call; anything else as it is. -/
def Item.indirect (i : Item) : Item := { i with rhs := i.rhs.indirect?.getD i.rhs }

/-- What becomes of the item that a decision is about. -/
def Decision.carryOut (d : Decision) (i : Item) : Option Item :=
  match d.action with
  | .remove => none
  | .makeClosure captures => some { i with rhs := .op (.makeClosure captures d.name) }

/-- Carrying out a decision keeps the number of the record. -/
theorem Decision.id_of_carryOut {d : Decision} {i j : Item} (h : d.carryOut i = some j) :
    j.id = i.id := by
  unfold carryOut at h
  split at h
  · exact absurd h (by simp)
  · rw [← Option.some.inj h]

namespace Classification

/-- An item with its call marked. -/
def mark (c : Classification) (i : Item) : Item :=
  if c.closureCalls.contains i.id then i.indirect else i

/-- An item with its decision carried out. -/
def carryOut (c : Classification) (i : Item) : Option Item :=
  match c.decisions.get? i.id with
  | some d => d.carryOut i
  | none => some i

/-- An item after conversion, if it is left. -/
def convertItem (c : Classification) (i : Item) : Option Item := c.carryOut (c.mark i)

end Classification

/-- Making a call indirect changes calls only, and them to indirect ones. -/
theorem Item.indirect_cases (i : Item) :
    (i.rhs.indirect? = none ∧ i.indirect = i) ∨
      ∃ callee args, i.indirect = ⟨i.id, i.ident, .op (.app callee args true)⟩ := by
  obtain ⟨id, ident, rhs⟩ := i
  cases rhs with
  | op o =>
      cases o with
      | app callee args indirect => exact .inr ⟨callee, args, rfl⟩
      | _ => exact .inl ⟨rfl, rfl⟩
  | fn params body => exact .inl ⟨rfl, rfl⟩
  | branch cond yes no => exact .inl ⟨rfl, rfl⟩

/-- A call is made indirect once and for all. -/
theorem Item.indirect_indirect (i : Item) : i.indirect.indirect = i.indirect := by
  rcases i.indirect_cases with ⟨-, h⟩ | ⟨callee, args, h⟩
  · rw [h, h]
  · rw [h]
    rfl

/-- A call that was made indirect is still a call. -/
theorem Item.isSome_indirect? {i : Item} (h : i.rhs.indirect?.isSome = true) :
    i.indirect.rhs.indirect?.isSome = true := by
  rcases i.indirect_cases with ⟨hnone, -⟩ | ⟨callee, args, hi⟩
  · rw [hnone] at h
    exact absurd h Bool.false_ne_true
  · rw [hi]
    rfl

namespace Classification

variable {c : Classification} {i j : Item}

/-- Marking makes a call on record indirect and leaves everything else. -/
theorem mark_cases (c : Classification) (i : Item) :
    c.mark i = i ∨ (c.closureCalls.contains i.id = true ∧ ∃ callee args,
      c.mark i = ⟨i.id, i.ident, .op (.app callee args true)⟩) := by
  unfold mark
  split
  next h => exact i.indirect_cases.imp (·.2) fun hcall => ⟨h, hcall⟩
  next => exact .inl rfl

/-- Only calls are marked. -/
theorem mark_eq_self (c : Classification) (h : i.rhs.indirect? = none) : c.mark i = i := by
  have hsame : i.indirect = i := by rw [Item.indirect, h, Option.getD_none]
  rw [mark, hsame, ite_self]

/-- A call that goes through a closure is marked as indirect. -/
theorem mark_app {id : RecordId} {ident callee : Name} {args : List Name} {indirect : Bool}
    (h : c.closureCalls.contains id = true) :
    c.mark ⟨id, ident, .op (.app callee args indirect)⟩ =
      ⟨id, ident, .op (.app callee args true)⟩ :=
  if_pos h

/-- Marking keeps the number of the record. -/
theorem id_mark (c : Classification) (i : Item) : (c.mark i).id = i.id := by
  rcases c.mark_cases i with h | ⟨-, callee, args, h⟩
  · rw [h]
  · rw [h]

/-- Where nothing is decided, conversion only marks. -/
theorem convertItem_of_undecided (h : c.decisions.get? i.id = none) :
    c.convertItem i = some (c.mark i) := by
  rw [convertItem, carryOut, id_mark, h]

/-- What can be left of an item: itself, a call made indirect, or a closure construction. -/
theorem convertItem_cases (h : c.convertItem i = some j) :
    j = i ∨
      (c.closureCalls.contains i.id = true ∧ ∃ callee args,
        j = ⟨i.id, i.ident, .op (.app callee args true)⟩) ∨
      ∃ d captures, c.decisions.get? i.id = some d ∧ d.action = .makeClosure captures ∧
        j.rhs = .op (.makeClosure captures d.name) := by
  rw [convertItem, carryOut, id_mark] at h
  split at h
  next d hd =>
    unfold Decision.carryOut at h
    split at h
    next => cases h
    next captures hact =>
      cases h
      exact .inr (.inr ⟨d, captures, hd, hact, rfl⟩)
  next =>
    obtain rfl := Option.some.inj h
    exact (c.mark_cases i).imp_right .inl

end Classification

/-- The same blocks with other items: every block has the items of `a`, each treated by `f`. -/
structure Arena.Edited (f : Item → Option Item) (a a' : Arena) : Prop where
  orderly : a'.Orderly
  bounds : ∀ blk, a'.bounds? blk = a.bounds? blk
  items : ∀ blk, a'.items blk = (a.items blk).filterMap f

namespace Arena.Edited

variable {f g : Item → Option Item} {a a₁ a' : Arena}

/-- Without a change, every item stays. -/
theorem refl (ho : a.Orderly) : Edited some a a where
  orderly := ho
  bounds := fun _ => rfl
  items := fun _ => List.filterMap_some.symm

/-- Changes one after the other. -/
theorem trans (h : Edited f a a₁) (h' : Edited g a₁ a') :
    Edited (fun i => (f i).bind g) a a' where
  orderly := h'.orderly
  bounds := fun blk => (h'.bounds blk).trans (h.bounds blk)
  items := fun blk => by rw [h'.items, h.items, List.filterMap_filterMap]

/-- Only what the treatment does to items of the arena matters. -/
theorem congr (h : Edited f a a') (hfg : ∀ blk, ∀ i ∈ a.items blk, f i = g i) : Edited g a a' where
  orderly := h.orderly
  bounds := h.bounds
  items := fun blk => (h.items blk).trans (List.filterMap_congr (hfg blk))

/-- An item that the treatment leaves alone is still there. -/
theorem mem_items (h : Edited f a a') {blk : BlockId} {i j : Item} (hi : i ∈ a.items blk)
    (hf : f i = some j) : j ∈ a'.items blk := by
  rw [h.items]
  exact List.mem_filterMap.mpr ⟨i, hi, hf⟩

end Arena.Edited

namespace Arena

variable {a : Arena} {blk : BlockId} {i : Item}

/-- The record of an item. -/
theorem exists_record?_of_mem_items (hi : i ∈ a.items blk) :
    ∃ r, a.record? i.id = some r ∧ r.item i.id = i := by
  obtain ⟨r, hr, hitem⟩ := Option.map_eq_some_iff.mp (item?_of_mem_items hi)
  exact ⟨r, hr, hitem⟩

/-- Two items with one record are the same. -/
theorem eq_of_id_eq {blk' : BlockId} {j : Item} (hi : i ∈ a.items blk) (hj : j ∈ a.items blk')
    (h : i.id = j.id) : i = j := by
  have hi := item?_of_mem_items hi
  rw [h, item?_of_mem_items hj] at hi
  exact (Option.some.inj hi).symm

/-- Another right-hand side changes one item. -/
theorem edited_setRhs (ho : a.Orderly) (id : RecordId) (rhs : Rhs BlockId) :
    Edited (fun j => some (if j.id = id then { j with rhs := rhs } else j)) a (a.setRhs id rhs) where
  orderly := ho.setRhs id rhs
  bounds := fun _ => rfl
  items := fun blk => by rw [ho.items_setRhs, ← List.filterMap_eq_map']

/-- Detaching drops one item. -/
theorem edited_detach (ho : a.Orderly) (hi : i ∈ a.items blk) :
    Edited (fun j => if j.id = i.id then none else some j) a (a.detach i.id) where
  orderly := ho.detach i.id
  bounds := bounds?_detach a i.id
  items := fun blk' => by
    rw [ho.items_detach hi, ← List.filterMap_eq_filter]
    refine List.filterMap_congr fun j _ => ?_
    by_cases h : j.id = i.id
    · simp [h, Option.guard]
    · simp [h, Option.guard]

end Arena

namespace Classification

variable {a : Arena} {blk : BlockId} {i : Item}

/-! ## Marking calls -/

/-- A call that is marked is changed in its place. -/
theorem markIndirect?_spec (ho : a.Orderly) (hi : i ∈ a.items blk)
    (hcall : i.rhs.indirect?.isSome = true) :
    ∃ a', a.markIndirect? i.id = some a' ∧
      Arena.Edited (fun j => some (if j.id = i.id then j.indirect else j)) a a' := by
  obtain ⟨r, hr, hitem⟩ := Arena.exists_record?_of_mem_items hi
  obtain ⟨rhs, hrhs⟩ := Option.isSome_iff_exists.mp hcall
  have hmark : a.markIndirect? i.id = some (a.setRhs i.id rhs) := by
    have hind : r.rhs.indirect? = some rhs := by
      rw [← hrhs, ← hitem]
      rfl
    simp only [Arena.markIndirect?, hr, Option.bind_some, hind, Option.map_some]
  refine ⟨_, hmark, (Arena.edited_setRhs ho i.id rhs).congr fun blk' j hj => ?_⟩
  by_cases h : j.id = i.id
  · rw [if_pos h, if_pos h, Arena.eq_of_id_eq hj hi h, Item.indirect, hrhs, Option.getD_some]
  · rw [if_neg h, if_neg h]

/-- Marking calls succeeds if all of them are calls. -/
theorem markCalls_spec {ids : List RecordId} (ho : a.Orderly)
    (hcalls : ∀ id ∈ ids, ∃ blk, ∃ i ∈ a.items blk, i.id = id ∧ i.rhs.indirect?.isSome = true) :
    ∃ a', markCalls ids a = .ok a' ∧
      Arena.Edited (fun i => some (if i.id ∈ ids then i.indirect else i)) a a' := by
  induction ids generalizing a with
  | nil =>
      refine ⟨a, rfl, (Arena.Edited.refl ho).congr fun _ i _ => ?_⟩
      rw [if_neg List.not_mem_nil]
  | cons id ids ih =>
      obtain ⟨blk, i, hi, rfl, hcall⟩ := hcalls _ List.mem_cons_self
      obtain ⟨r, hr, -⟩ := Arena.exists_record?_of_mem_items hi
      obtain ⟨a₁, hmark, hedit⟩ := markIndirect?_spec ho hi hcall
      have hleft : ∀ id ∈ ids,
          ∃ blk, ∃ j ∈ a₁.items blk, j.id = id ∧ j.rhs.indirect?.isSome = true := by
        intro id hid
        obtain ⟨blk', j, hj, rfl, hcall'⟩ := hcalls id (List.mem_cons_of_mem _ hid)
        refine ⟨blk', _, hedit.mem_items hj rfl, ?_, ?_⟩
        · split <;> rfl
        · split
          · exact Item.isSome_indirect? hcall'
          · exact hcall'
      obtain ⟨a', hrest, hedit'⟩ := ih hedit.orderly hleft
      refine ⟨a', ?_, (hedit.trans hedit').congr fun blk' j hj => ?_⟩
      · simp only [markCalls, Arena.requireRecord, hr, hmark]
        exact hrest
      · rw [Option.bind_some]
        by_cases h : j.id = i.id
        · have hmem : j.id ∈ i.id :: ids := List.mem_cons.mpr (.inl h)
          rw [if_pos h, if_pos hmem, Item.indirect_indirect, ite_self]
        · rw [if_neg h]
          simp only [List.mem_cons, h, false_or]

/-! ## Carrying out decisions -/

/-- Carrying out a decision changes or drops one item. -/
theorem edited_applyAction (ho : a.Orderly) (hi : i ∈ a.items blk) (d : Decision) :
    Arena.Edited (fun j => if j.id = i.id then d.carryOut j else some j) a
      (applyAction a i.id d) := by
  unfold applyAction Decision.carryOut
  cases d.action with
  | remove => exact Arena.edited_detach ho hi
  | makeClosure captures =>
      refine (Arena.edited_setRhs ho i.id _).congr fun _ j _ => ?_
      by_cases h : j.id = i.id
      · rw [if_pos h, if_pos h]
      · rw [if_neg h, if_neg h]

/-- An item treated by the decision on it, if the list has one. -/
def treat (entries : List (RecordId × Decision)) (i : Item) : Option Item :=
  match entries.find? (·.1 = i.id) with
  | some e => e.2.carryOut i
  | none => some i

/-- Items without an entry stay. -/
theorem treat_of_not_mem {entries : List (RecordId × Decision)} (h : ∀ e ∈ entries, e.1 ≠ i.id) :
    treat entries i = some i := by
  have hnone : entries.find? (·.1 = i.id) = none := by
    rw [List.find?_eq_none]
    intro e he
    simpa using h e he
  rw [treat, hnone]

/-- An entry in front of others with other numbers is carried out on its own item only. -/
theorem treat_cons (id : RecordId) (d : Decision) {entries : List (RecordId × Decision)}
    (hkey : ∀ e ∈ entries, id ≠ e.1) (i : Item) :
    ((if i.id = id then d.carryOut i else some i).bind (treat entries)) =
      treat ((id, d) :: entries) i := by
  by_cases h : i.id = id
  · have hfind : ((id, d) :: entries).find? (·.1 = i.id) = some (id, d) := by
      rw [List.find?_cons_of_pos]
      exact decide_eq_true h.symm
    rw [if_pos h, treat, hfind]
    show _ = d.carryOut i
    cases hd : d.carryOut i with
    | none => rfl
    | some j =>
        refine treat_of_not_mem fun e he => ?_
        rw [Decision.id_of_carryOut hd, h]
        exact (hkey e he).symm
  · have hfind : ((id, d) :: entries).find? (·.1 = i.id) = entries.find? (·.1 = i.id) := by
      rw [List.find?_cons_of_neg]
      simpa using Ne.symm h
    rw [if_neg h, Option.bind_some, treat, treat, hfind]

/-- The table of functions with those of the decided literals added. -/
def collect (functions : Table Name Function) (entries : List (RecordId × Decision)) :
    Table Name Function :=
  entries.foldl (fun t e => t.insert e.2.name ⟨e.2.params, e.2.body⟩) functions

/-- Carrying out decisions succeeds if all of them are about function literals. -/
theorem applyDecisions_spec {entries : List (RecordId × Decision)}
    {functions : Table Name Function} (ho : a.Orderly)
    (hkeys : entries.Pairwise fun e e' => e.1 ≠ e'.1)
    (hfns : ∀ e ∈ entries, ∃ blk, ∃ i ∈ a.items blk, i.id = e.1 ∧ i.rhs.isFn = true) :
    ∃ a', applyDecisions entries functions a = .ok (collect functions entries, a') ∧
      Arena.Edited (treat entries) a a' := by
  induction entries generalizing a functions with
  | nil => exact ⟨a, rfl, (Arena.Edited.refl ho).congr fun _ _ _ => rfl⟩
  | cons e entries ih =>
      obtain ⟨id, d⟩ := e
      obtain ⟨hkey, hkeys'⟩ := List.pairwise_cons.mp hkeys
      obtain ⟨blk, i, hi, rfl, hfn⟩ := hfns _ List.mem_cons_self
      obtain ⟨r, hr, hitem⟩ := Arena.exists_record?_of_mem_items hi
      have happlies : applies d r.rhs = true := by
        have hrhs : r.rhs.isFn = true := by
          rw [← hitem] at hfn
          exact hfn
        cases hcase : r.rhs with
        | fn params body => rfl
        | op o =>
            rw [hcase] at hrhs
            exact absurd hrhs Bool.false_ne_true
        | branch cond yes no =>
            rw [hcase] at hrhs
            exact absurd hrhs Bool.false_ne_true
      have hedit := edited_applyAction ho hi d
      have hleft : ∀ e ∈ entries,
          ∃ blk, ∃ j ∈ (applyAction a i.id d).items blk, j.id = e.1 ∧ j.rhs.isFn = true := by
        intro e he
        obtain ⟨blk', j, hj, hid, hfn'⟩ := hfns e (List.mem_cons_of_mem _ he)
        refine ⟨blk', j, hedit.mem_items hj ?_, hid, hfn'⟩
        rw [if_neg]
        exact hid ▸ (hkey e he).symm
      obtain ⟨a', hrest, hedit'⟩ := ih hedit.orderly hkeys' hleft
      refine ⟨a', ?_, (hedit.trans hedit').congr fun _ j _ => treat_cons i.id d hkey j⟩
      simp only [applyDecisions, Arena.requireRecord, hr]
      show (if applies d r.rhs then _ else _) = _
      rw [if_pos happlies]
      exact hrest

/-- The functions that are collected are those of the decisions, the last one under each name. -/
theorem collect_eq (functions : Table Name Function) (entries : List (RecordId × Decision)) :
    collect functions entries =
      functions.insertAll (entries.map fun e => (e.2.name, ⟨e.2.params, e.2.body⟩)) := by
  rw [Table.insertAll, List.foldl_map]
  rfl

/-- A function is collected if it was there or is decided. -/
theorem contains_collect {functions : Table Name Function} {entries : List (RecordId × Decision)}
    {n : Name} : (collect functions entries).contains n = true ↔
      functions.contains n = true ∨ ∃ e ∈ entries, e.2.name = n := by
  rw [collect_eq, Table.contains_insertAll]
  simp only [List.mem_map, exists_exists_and_eq_and]

/-- A function of the table is one of the decided literals. -/
theorem exists_of_get?_collect {functions : Table Name Function}
    {entries : List (RecordId × Decision)} {n : Name} {f : Function}
    (h : (collect functions entries).get? n = some f) :
    functions.get? n = some f ∨ ∃ e ∈ entries, e.2.name = n ∧ f = ⟨e.2.params, e.2.body⟩ := by
  rw [collect_eq] at h
  refine (Table.mem_of_get?_insertAll h).imp_right fun hmem => ?_
  obtain ⟨e, he, heq⟩ := List.mem_map.mp hmem
  obtain ⟨hn, hf⟩ := Prod.mk.inj heq
  exact ⟨e, he, hn, hf.symm⟩

/-! ## The whole classification -/

variable {c : Classification}

/-- What the entries of a classification do to an item is what its decision does. -/
theorem treat_decisions (c : Classification) (i : Item) :
    treat c.decisions.entries i = c.carryOut i := by
  have hfind : c.decisions.entries.find? (·.1 = i.id) =
      c.decisions.entries.find? (fun e => compare i.id e.1 == .eq) := by
    congr 1
    funext e
    rw [Bool.eq_iff_iff, Table.compare_beq_eq_iff, decide_eq_true_eq, eq_comm]
  rw [treat, carryOut, Table.get?, hfind]
  cases c.decisions.entries.find? (fun e => compare i.id e.1 == .eq) <;> rfl

/-- A literal is not marked. -/
theorem mark_of_isFn (c : Classification) {i : Item} (h : i.rhs.isFn = true) : c.mark i = i := by
  obtain ⟨id, ident, rhs⟩ := i
  cases rhs with
  | fn params body => exact c.mark_eq_self rfl
  | op o => exact absurd h Bool.false_ne_true
  | branch cond yes no => exact absurd h Bool.false_ne_true

/-- A classification whose calls are calls and whose decisions are about literals can be applied. It
converts each item of the arena, and the functions are the decided literals. -/
theorem applyTo_spec (ho : a.Orderly)
    (hcalls : ∀ id, c.closureCalls.contains id = true →
      ∃ blk, ∃ i ∈ a.items blk, i.id = id ∧ i.rhs.indirect?.isSome = true)
    (hfns : ∀ id d, c.decisions.get? id = some d →
      ∃ blk, ∃ i ∈ a.items blk, i.id = id ∧ i.rhs.isFn = true) :
    ∃ p, c.applyTo a = .ok p ∧ p.closures = c.closures ∧
      p.functions = collect ∅ c.decisions.entries ∧ Arena.Edited c.convertItem a p.arena := by
  have hkey : ∀ id, id ∈ c.closureCalls.keys ↔ c.closureCalls.contains id = true := by
    intro id
    rw [Table.mem_keys_iff, Table.contains_iff]
  obtain ⟨a₁, hmark, hedit⟩ := markCalls_spec ho fun id hid => hcalls id ((hkey id).mp hid)
  have hedit₁ : Arena.Edited (fun i => some (c.mark i)) a a₁ := by
    refine hedit.congr fun _ i _ => ?_
    simp only [hkey, mark]
  have hleft : ∀ e ∈ c.decisions.entries,
      ∃ blk, ∃ i ∈ a₁.items blk, i.id = e.1 ∧ i.rhs.isFn = true := by
    rintro ⟨id, d⟩ he
    obtain ⟨blk, i, hi, hid, hfn⟩ := hfns id d (Table.mem_entries_iff.mp he)
    exact ⟨blk, i, hedit₁.mem_items hi (by rw [mark_of_isFn c hfn]), hid, hfn⟩
  obtain ⟨a₂, happly, hedit₂⟩ := applyDecisions_spec hedit₁.orderly c.decisions.pairwise_key_ne hleft
  refine ⟨⟨collect ∅ c.decisions.entries, c.closures, a₂⟩, ?_, rfl, rfl, ?_⟩
  · rw [applyTo, hmark]
    show (applyDecisions c.decisions.entries ∅ a₁ >>= _) = _
    rw [happly]
    rfl
  · refine (hedit₁.trans hedit₂).congr fun _ i _ => ?_
    rw [Option.bind_some, treat_decisions]
    rfl

end Classification

end ClosureConversion
