import ClosureConversion.Proofs.Arena.Grounded
import ClosureConversion.Proofs.Classification

/-!
# Free names by their occurrences

What the free names of instructions are, said without a walk. A `Position` tells where a name is read:
at an operand of an instruction, or at a position in a block that the instruction holds. Positions are
compared like words, which is the order from left to right and depth first.

* `Arena.ReadAt`: a name is read at a position.
* `Arena.BoundAt`: a name is bound at a position, by something between the first instruction and there.
* `Arena.ListsFree`: a list holds the names that are read where they are not bound, each once, in the
  order of their first such positions. A known function is not read where it is called.

The walk that collects free names finds this list (`freeNamesFrom_listsFree`). In between stands
`Code.openReads`, the list of all readings of code that are not bound in it. It is in the order of the
positions (`Code.sorted_openReads`), it holds what the arena says (`Arena.mem_openReads`), and the walk
inserts the names of its readings one after the other (`Code.gather_eq_addFree`).
-/

namespace ClosureConversion

/-- Where a name is read in some instructions: the number of an instruction, and then either the number
of an operand or, counted on behind the operands, that of a block and a position in this block. -/
abbrev Position := List Nat

/-- A name read at a position, as the callee of a call or otherwise. -/
structure Reading where
  pos : Position
  name : Name
  call : Bool

namespace Reading

/-- A reading of instructions, seen from one instruction before them. -/
def later (r : Reading) : Reading := { r with pos := r.pos.modifyHead (· + 1) }

/-- A reading of a block, seen from the instruction that holds the block in place `j`. -/
def inside (j : Nat) (r : Reading) : Reading := { r with pos := 0 :: j :: r.pos }

/-- Whether a value is needed: a known function can be called without one. -/
def counts (known : NameSet) (r : Reading) : Bool := !(r.call && known.contains r.name)

/-- The readings that stand behind an instruction, without those of the name it binds. -/
def behind (ident : Name) (rs : List Reading) : List Reading :=
  (rs.filter (·.name ≠ ident)).map later

/-- The readings of a block in place `j`, without those of the names bound around it. -/
def within (bound : List Name) (j : Nat) (rs : List Reading) : List Reading :=
  (rs.filter (·.name ∉ bound)).map (inside j)

/-- The names that are needed, in the order of their readings. -/
def needed (known : NameSet) (rs : List Reading) : List Name :=
  (rs.filter (·.counts known)).map (·.name)

end Reading

/-- Whether an operand is the callee of a call. -/
def Operation.isCallee : Operation → Nat → Bool
  | .app .., 0 => true
  | _, _ => false

namespace Rhs

variable {β : Type}

/-- Whether an operand is the callee of a call. -/
def isCallee : Rhs β → Nat → Bool
  | .op o, j => o.isCallee j
  | _, _ => false

/-- The parameters of a function literal. -/
def params : Rhs β → List Name
  | .fn params _ => params
  | _ => []

/-- The readings of a right-hand side itself, nested blocks apart. -/
def readings (rhs : Rhs β) : List Reading :=
  rhs.operands.zipIdx.map fun x => ⟨[0, x.2], x.1, rhs.isCallee x.2⟩

/-- The readings of an instruction are its operands, at their positions. -/
theorem mem_readings {rhs : Rhs β} {r : Reading} :
    r ∈ rhs.readings ↔
      ∃ j, r.pos = [0, j] ∧ rhs.operands[j]? = some r.name ∧ rhs.isCallee j = r.call := by
  obtain ⟨pos, n, call⟩ := r
  simp only [readings, List.mem_map, List.mem_zipIdx_iff_getElem?]
  constructor
  · rintro ⟨⟨m, j⟩, hj, heq⟩
    cases heq
    exact ⟨j, rfl, hj, rfl⟩
  · rintro ⟨j, rfl, hj, rfl⟩
    exact ⟨(n, j), hj, rfl⟩

end Rhs

namespace Arena

/-! ## Occurrences -/

/-- The name `n` is read at a position of some instructions, as the callee of a call or otherwise. -/
inductive ReadAt (a : Arena) (n : Name) (call : Bool) : List Item → Position → Prop where
  | operand {items : List Item} {i : Item} {k j : Nat} : items[k]? = some i →
    i.rhs.operands[j]? = some n → i.rhs.isCallee j = call → ReadAt a n call items [k, j]
  | nested {items : List Item} {i : Item} {k j : Nat} {blk : BlockId} {pos : Position} :
    items[k]? = some i → i.rhs.blocks[j]? = some blk → ReadAt a n call (a.items blk) pos →
    ReadAt a n call items (k :: (i.rhs.operands.length + j) :: pos)

/-- The name `n` is bound at a position of some instructions. -/
inductive BoundAt (a : Arena) (n : Name) : List Item → Position → Prop where
  /-- By an earlier instruction. -/
  | earlier {items : List Item} {i : Item} {k : Nat} {pos : Position} : i ∈ items.take k →
    i.ident = n → BoundAt a n items (k :: pos)
  /-- By a member of a run of literals that has been entered: the literal itself or a later one. -/
  | run {items : List Item} {i : Item} {k : Nat} {pos : Position} :
    i ∈ (items.drop k).takeWhile (·.rhs.isFn) → i.ident = n → BoundAt a n items (k :: pos)
  /-- By a parameter of the literal. -/
  | param {items : List Item} {i : Item} {k : Nat} {pos : Position} : items[k]? = some i →
    n ∈ i.rhs.params → BoundAt a n items (k :: pos)
  /-- Inside the block that the instruction holds there. -/
  | nested {items : List Item} {i : Item} {k j : Nat} {blk : BlockId} {pos : Position} :
    items[k]? = some i → i.rhs.blocks[j]? = some blk → BoundAt a n (a.items blk) pos →
    BoundAt a n items (k :: (i.rhs.operands.length + j) :: pos)

/-- A name is read at a position where it is not bound. -/
structure FreeAt (a : Arena) (items : List Item) (r : Reading) : Prop where
  read : a.ReadAt r.name r.call items r.pos
  unbound : ¬a.BoundAt r.name items r.pos

/-- A name is read at a position where it is not bound, and not only to call a known function. -/
def NeededAt (a : Arena) (known : NameSet) (items : List Item) (n : Name) (pos : Position) : Prop :=
  ∃ call, a.FreeAt items ⟨pos, n, call⟩ ∧ ¬(call = true ∧ n ∈ known)

/-- A list holds the names that are needed at some position, each once, in the order of the first
positions at which they are. -/
structure ListsFree (a : Arena) (known : NameSet) (items : List Item) (names : List Name) :
    Prop where
  mem_iff : ∀ n, n ∈ names ↔ ∃ pos, a.NeededAt known items n pos
  nodup : names.Nodup
  ordered : names.Pairwise fun n m => ∃ pos, a.NeededAt known items n pos ∧
    ∀ pos', a.NeededAt known items m pos' → pos < pos'

variable {a : Arena} {i : Item} {items : List Item} {n : Name} {call : Bool} {pos : Position}

/-- A reading behind the first instruction is a reading of what follows. -/
theorem readAt_cons_succ {k : Nat} :
    a.ReadAt n call (i :: items) ((k + 1) :: pos) ↔ a.ReadAt n call items (k :: pos) := by
  constructor
  · intro h
    cases h with
    | operand hk hop hcall => exact .operand (by simpa using hk) hop hcall
    | nested hk hblk h => exact .nested (by simpa using hk) hblk h
  · intro h
    cases h with
    | operand hk hop hcall => exact .operand (by simpa using hk) hop hcall
    | nested hk hblk h => exact .nested (by simpa using hk) hblk h

/-- A binding at a position behind the first instruction: its own, or one of what follows. -/
theorem boundAt_cons_succ {k : Nat} :
    a.BoundAt n (i :: items) ((k + 1) :: pos) ↔ i.ident = n ∨ a.BoundAt n items (k :: pos) := by
  constructor
  · intro h
    cases h with
    | earlier hi hn =>
        rw [List.take_succ_cons] at hi
        rcases List.mem_cons.mp hi with rfl | hi
        · exact .inl hn
        · exact .inr (.earlier hi hn)
    | run hi hn => exact .inr (.run (by simpa using hi) hn)
    | param hk hp => exact .inr (.param (by simpa using hk) hp)
    | nested hk hblk h => exact .inr (.nested (by simpa using hk) hblk h)
  · rintro (hn | h)
    · exact .earlier List.mem_cons_self hn
    · cases h with
      | earlier hi hn =>
          refine .earlier ?_ hn
          rw [List.take_succ_cons]
          exact List.mem_cons_of_mem _ hi
      | run hi hn => exact .run (by simpa using hi) hn
      | param hk hp => exact .param (by simpa using hk) hp
      | nested hk hblk h => exact .nested (by simpa using hk) hblk h

/-- The names that the first instruction binds in the blocks it holds. -/
def namesWithin (i : Item) (items : List Item) : List Name :=
  i.rhs.params ++ ((i :: items).takeWhile (·.rhs.isFn)).map (·.ident)

/-- The names bound in what an instruction holds: its parameters and the names of its run. -/
theorem mem_namesWithin : n ∈ namesWithin i items ↔
    n ∈ i.rhs.params ∨ ∃ i' ∈ (i :: items).takeWhile (·.rhs.isFn), i'.ident = n := by
  simp [namesWithin]

/-- Only function literals bind names in what they hold, and they have no operands. -/
theorem namesWithin_eq_nil {j : Nat} (h : i.rhs.operands[j]? = some n) : namesWithin i items = [] := by
  obtain ⟨id, ident, rhs⟩ := i
  cases rhs with
  | fn params blk => cases h
  | op o => rfl
  | branch cond yes no => rfl

/-- At the first instruction, a name is bound by this instruction or inside what it holds. -/
theorem boundAt_cons_zero : a.BoundAt n (i :: items) (0 :: pos) ↔ n ∈ namesWithin i items ∨
    ∃ j blk pos', pos = (i.rhs.operands.length + j) :: pos' ∧ i.rhs.blocks[j]? = some blk ∧
      a.BoundAt n (a.items blk) pos' := by
  rw [mem_namesWithin]
  constructor
  · intro h
    cases h with
    | earlier hi _ => exact absurd hi List.not_mem_nil
    | run hi hn => exact .inl (.inr ⟨_, hi, hn⟩)
    | param hk hp =>
        cases hk
        exact .inl (.inl hp)
    | nested hk hblk h =>
        cases hk
        exact .inr ⟨_, _, _, rfl, hblk, h⟩
  · rintro ((hp | ⟨i', hi, hn⟩) | ⟨j, blk, pos', rfl, hblk, h⟩)
    · exact .param rfl hp
    · exact .run hi hn
    · exact .nested rfl hblk h

/-- A free occurrence stands in the first instruction itself, in a block that it holds, or behind
it. -/
theorem freeAt_cons {r : Reading} : a.FreeAt (i :: items) r ↔ r ∈ i.rhs.readings ∨
    (∃ j blk s, i.rhs.blocks[j]? = some blk ∧ a.FreeAt (a.items blk) s ∧
      s.name ∉ namesWithin i items ∧ s.inside (i.rhs.operands.length + j) = r) ∨
    ∃ s, a.FreeAt items s ∧ s.name ≠ i.ident ∧ s.later = r := by
  obtain ⟨pos, n, call⟩ := r
  rw [Rhs.mem_readings]
  constructor
  · rintro ⟨hread, hfree⟩
    cases hread with
    | @operand _ i' k j hk hop hcall =>
        cases k with
        | zero =>
            cases hk
            exact .inl ⟨j, rfl, hop, hcall⟩
        | succ k =>
            rw [boundAt_cons_succ, not_or] at hfree
            refine .inr (.inr ⟨⟨[k, j], n, call⟩, ⟨?_, hfree.2⟩, Ne.symm hfree.1, rfl⟩)
            exact .operand (by simpa using hk) hop hcall
    | @nested _ i' k j blk pos hk hblk h =>
        cases k with
        | zero =>
            cases hk
            rw [boundAt_cons_zero, not_or] at hfree
            refine .inr (.inl ⟨j, blk, ⟨pos, n, call⟩, hblk, ⟨h, ?_⟩, hfree.1, rfl⟩)
            exact fun hb => hfree.2 ⟨j, blk, pos, rfl, hblk, hb⟩
        | succ k =>
            rw [boundAt_cons_succ, not_or] at hfree
            refine .inr (.inr ⟨⟨k :: _ :: pos, n, call⟩, ⟨?_, hfree.2⟩, Ne.symm hfree.1, rfl⟩)
            exact .nested (by simpa using hk) hblk h
  · rintro (⟨j, hpos, hop, hcall⟩ | ⟨j, blk, s, hblk, hs, hn, heq⟩ | ⟨s, hs, hn, heq⟩)
    · cases hpos
      refine ⟨.operand rfl hop hcall, ?_⟩
      rw [boundAt_cons_zero, namesWithin_eq_nil hop]
      rintro (hn | ⟨j', blk, pos', hpos, -, hb⟩)
      · exact absurd hn List.not_mem_nil
      · cases hpos
        cases hb
    · cases heq
      refine ⟨.nested rfl hblk hs.read, ?_⟩
      rw [boundAt_cons_zero]
      rintro (hb | ⟨j', blk', pos', hpos, hblk', hb⟩)
      · exact hn hb
      · obtain ⟨hj, rfl⟩ := List.cons.inj hpos
        obtain rfl := Nat.add_left_cancel hj
        cases hblk.symm.trans hblk'
        exact hs.unbound hb
    · cases heq
      obtain ⟨pos, m, call⟩ := s
      cases pos with
      | nil => cases hs.read
      | cons k pos =>
          refine ⟨readAt_cons_succ.mpr hs.read, ?_⟩
          show ¬a.BoundAt m (i :: items) ((k + 1) :: pos)
          rw [boundAt_cons_succ, not_or]
          exact ⟨Ne.symm hn, hs.unbound⟩

end Arena

/-! ## Readings of code -/

namespace Code

/-- The readings of code that the code does not bind. -/
def openReads : Code → List Reading
  | .done => []
  | .op _ ident o rest => (Rhs.op o : Rhs BlockId).readings ++ Reading.behind ident rest.openReads
  | .fn _ ident params _ body rest =>
    Reading.within (params ++ ident :: rest.runNames) 0 body.openReads ++
      Reading.behind ident rest.openReads
  | .branch _ ident cond yesBlk noBlk yes no rest =>
    (Rhs.branch cond yesBlk noBlk).readings ++ (Reading.within [] 1 yes.openReads ++
      (Reading.within [] 2 no.openReads ++ Reading.behind ident rest.openReads))

end Code

namespace Reading

variable {ident : Name} {bound : List Name} {rs : List Reading} {r : Reading} {j : Nat}
  {known : NameSet}

/-- A reading counts unless it is a call of a known function. -/
theorem counts_iff : r.counts known = true ↔ ¬(r.call = true ∧ r.name ∈ known) := by
  rw [counts, Bool.not_eq_true', ← Bool.not_eq_true, Bool.and_eq_true, NameSet.contains_iff]

/-- The readings behind an instruction are those of what follows that it does not bind. -/
theorem mem_behind : r ∈ behind ident rs ↔ ∃ s ∈ rs, s.name ≠ ident ∧ s.later = r := by
  simp [behind, and_assoc]

/-- The readings inside a block are those that are not bound around it. -/
theorem mem_within : r ∈ within bound j rs ↔ ∃ s ∈ rs, s.name ∉ bound ∧ s.inside j = r := by
  simp [within, and_assoc]

/-- The needed names are those of readings that count. -/
theorem mem_needed {n : Name} : n ∈ needed known rs ↔ ∃ r ∈ rs, r.counts known ∧ r.name = n := by
  simp [needed, and_assoc]

/-- The needed names with one more reading in front. -/
theorem needed_cons (known : NameSet) (r : Reading) (rs : List Reading) :
    needed known (r :: rs) =
      if r.counts known then r.name :: needed known rs else needed known rs := by
  simp only [needed, List.filter_cons]
  split <;> rfl

/-- The needed names of two lists of readings. -/
theorem needed_append (known : NameSet) (rs rs' : List Reading) :
    needed known (rs ++ rs') = needed known rs ++ needed known rs' := by
  simp [needed]

/-- The needed names behind an instruction are without the name it binds. -/
theorem needed_behind (known : NameSet) (ident : Name) (rs : List Reading) :
    needed known (behind ident rs) = (needed known rs).filter (· ≠ ident) := by
  simp only [needed, behind, List.filter_map, List.map_map, List.filter_filter]
  refine congrArg (List.map name) (List.filter_congr fun r _ => ?_)
  exact Bool.and_comm _ _

/-- The needed names inside a block are without those bound around it. -/
theorem needed_within (known : NameSet) (bound : List Name) (j : Nat) (rs : List Reading) :
    needed known (within bound j rs) = (needed known rs).filter (· ∉ bound) := by
  simp only [needed, within, List.filter_map, List.map_map, List.filter_filter]
  refine congrArg (List.map name) (List.filter_congr fun r _ => ?_)
  exact Bool.and_comm _ _

/-- Names that are not callees are needed whatever is known. -/
theorem needed_zipIdx {names : List Name} {k : Nat} {call : Nat → Bool}
    (hcall : ∀ j, k ≤ j → call j = false) :
    needed known ((names.zipIdx k).map fun x => ⟨[0, x.2], x.1, call x.2⟩) = names := by
  induction names generalizing k with
  | nil => rfl
  | cons n names ih =>
      have hcounts : (⟨[0, k], n, call k⟩ : Reading).counts known = true := by
        simp [counts, hcall k (Nat.le_refl k)]
      rw [List.zipIdx_cons, List.map_cons, needed_cons, if_pos hcounts,
        ih fun j hj => hcall j (Nat.le_of_succ_le hj)]

end Reading

/-- What the readings of an operation need is what the operation needs. -/
theorem Operation.needed_readings (known : NameSet) (o : Operation) :
    Reading.needed known (Rhs.op o : Rhs BlockId).readings = o.needs known := by
  cases o with
  | app callee args indirect =>
      have hargs : ∀ j, 0 + 1 ≤ j →
          (Rhs.op (app callee args indirect) : Rhs BlockId).isCallee j = false := by
        intro j hj
        obtain ⟨j, rfl⟩ := Nat.exists_eq_add_of_le' hj
        rfl
      show Reading.needed known (⟨[0, 0], callee, true⟩ :: _) = _
      rw [Reading.needed_cons, Reading.needed_zipIdx hargs]
      by_cases hk : callee ∈ known <;> simp [Reading.counts, needs, hk]
  | _ => exact Reading.needed_zipIdx fun _ _ => rfl

namespace Code

/-- The literals that instructions begin with are the run that code begins with. -/
theorem map_ident_takeWhile_heads (c : Code) :
    (c.heads.takeWhile (·.rhs.isFn)).map (·.ident) = c.runNames := by
  induction c with
  | fn id ident params blk body rest _ ih => exact congrArg (ident :: ·) ih
  | _ => rfl

/-- No reading is of a name of the run that code begins with. -/
theorem not_mem_runNames_of_mem_openReads {c : Code} {r : Reading} (h : r ∈ c.openReads) :
    r.name ∉ c.runNames := by
  induction c generalizing r with
  | fn id ident params blk body rest _ ih =>
      rcases List.mem_append.mp h with h | h
      · obtain ⟨s, -, hn, rfl⟩ := Reading.mem_within.mp h
        exact fun hin => hn (List.mem_append_right params hin)
      · obtain ⟨s, hs, hn, rfl⟩ := Reading.mem_behind.mp h
        exact List.not_mem_cons_of_ne_of_not_mem hn (ih (r := s) hs)
  | _ => exact List.not_mem_nil

end Code

namespace Arena

variable {a : Arena}

/-- Nothing is free without instructions. -/
theorem not_freeAt_nil {r : Reading} : ¬a.FreeAt [] r := by
  rintro ⟨hread, -⟩
  generalize r.pos = pos at hread
  cases hread with
  | operand hk => cases hk
  | nested hk => cases hk

/-- The items of a block are those of the code it shows. -/
theorem Shows.items_eq {blk : BlockId} {c : Code} (h : a.Shows blk c) : a.items blk = c.heads :=
  (h (blk, c) List.mem_cons_self).2

/-- The blocks that code holds are shown. -/
theorem Shows.shows_child {blk : BlockId} {c : Code} (h : a.Shows blk c) :
    ∀ y ∈ c.children, a.Shows y.1 y.2 :=
  fun _ hy => h.of_mem_blocks (Code.child_mem_blocks List.mem_cons_self hy)

/-- The readings of code are the free occurrences in the instructions it shows. -/
theorem mem_openReads {c : Code} {r : Reading} (hc : ∀ y ∈ c.children, a.Shows y.1 y.2) :
    r ∈ c.openReads ↔ a.FreeAt c.heads r := by
  induction c generalizing r with
  | done => exact iff_of_false List.not_mem_nil not_freeAt_nil
  | op id ident o rest ih =>
      rw [Code.openReads, List.mem_append, Reading.mem_behind, Code.heads, freeAt_cons]
      constructor
      · rintro (h | ⟨s, hs, hn, rfl⟩)
        · exact .inl h
        · exact .inr (.inr ⟨s, (ih hc).mp hs, hn, rfl⟩)
      · rintro (h | ⟨j, b, s, hb, -⟩ | ⟨s, hs, hn, rfl⟩)
        · exact .inl h
        · cases hb
        · exact .inr ⟨s, (ih hc).mpr hs, hn, rfl⟩
  | fn id ident params blk body rest ihb ih =>
      obtain ⟨hbody, hrest⟩ := List.forall_mem_cons.mp hc
      have hnames : namesWithin ⟨id, ident, .fn params blk⟩ rest.heads =
          params ++ ident :: rest.runNames := by
        rw [← rest.map_ident_takeWhile_heads]
        rfl
      rw [Code.openReads, List.mem_append, Reading.mem_within, Reading.mem_behind, Code.heads,
        freeAt_cons, hnames]
      constructor
      · rintro (⟨s, hs, hn, rfl⟩ | ⟨s, hs, hn, rfl⟩)
        · have hs := (ihb hbody.shows_child).mp hs
          rw [← hbody.items_eq] at hs
          exact .inr (.inl ⟨0, blk, s, rfl, hs, hn, rfl⟩)
        · exact .inr (.inr ⟨s, (ih hrest).mp hs, hn, rfl⟩)
      · rintro (h | ⟨j, b, s, hb, hs, hn, rfl⟩ | ⟨s, hs, hn, rfl⟩)
        · cases h
        · obtain ⟨rfl, rfl⟩ : j = 0 ∧ b = blk := by
            cases j with
            | zero => exact ⟨rfl, (Option.some.inj hb).symm⟩
            | succ j => cases hb
          rw [hbody.items_eq] at hs
          exact .inl ⟨s, (ihb hbody.shows_child).mpr hs, hn, rfl⟩
        · exact .inr ⟨s, (ih hrest).mpr hs, hn, rfl⟩
  | branch id ident cond yesBlk noBlk yes no rest ihy ihn ih =>
      obtain ⟨hyes, hc⟩ := List.forall_mem_cons.mp hc
      obtain ⟨hno, hrest⟩ := List.forall_mem_cons.mp hc
      rw [Code.openReads, List.mem_append, List.mem_append, List.mem_append, Reading.mem_within,
        Reading.mem_within, Reading.mem_behind, Code.heads, freeAt_cons]
      constructor
      · rintro (h | ⟨s, hs, hn, rfl⟩ | ⟨s, hs, hn, rfl⟩ | ⟨s, hs, hn, rfl⟩)
        · exact .inl h
        · have hs := (ihy hyes.shows_child).mp hs
          rw [← hyes.items_eq] at hs
          exact .inr (.inl ⟨0, yesBlk, s, rfl, hs, hn, rfl⟩)
        · have hs := (ihn hno.shows_child).mp hs
          rw [← hno.items_eq] at hs
          exact .inr (.inl ⟨1, noBlk, s, rfl, hs, hn, rfl⟩)
        · exact .inr (.inr ⟨s, (ih hrest).mp hs, hn, rfl⟩)
      · rintro (h | ⟨j, b, s, hb, hs, hn, rfl⟩ | ⟨s, hs, hn, rfl⟩)
        · exact .inl h
        · obtain ⟨rfl, rfl⟩ | ⟨rfl, rfl⟩ : (j = 0 ∧ b = yesBlk) ∨ (j = 1 ∧ b = noBlk) := by
            cases j with
            | zero => exact .inl ⟨rfl, (Option.some.inj hb).symm⟩
            | succ j =>
                cases j with
                | zero => exact .inr ⟨rfl, (Option.some.inj hb).symm⟩
                | succ j => cases hb
          · rw [hyes.items_eq] at hs
            exact .inr (.inl ⟨s, (ihy hyes.shows_child).mpr hs, hn, rfl⟩)
          · rw [hno.items_eq] at hs
            exact .inr (.inr (.inl ⟨s, (ihn hno.shows_child).mpr hs, hn, rfl⟩))
        · exact .inr (.inr (.inr ⟨s, (ih hrest).mpr hs, hn, rfl⟩))

end Arena

/-! ## The walk inserts the names of the readings -/

namespace NameSet

variable {found : NameSet} {bound : List Name}

/-- Free names can be added in two parts. -/
theorem addFree_append (found : NameSet) (bound names names' : List Name) :
    found.addFree bound (names ++ names') = (found.addFree bound names).addFree bound names' := by
  simp only [addFree, insertAll, List.filter_append, List.foldl_append]

/-- Names that are left out may as well be bound. -/
theorem addFree_filter {bound' names : List Name} {p : Name → Bool}
    (h : ∀ n ∈ names, n ∈ bound' ↔ p n = false ∨ n ∈ bound) :
    found.addFree bound (names.filter p) = found.addFree bound' names := by
  simp only [addFree, List.filter_filter]
  refine congrArg found.insertAll (List.filter_congr fun n hn => ?_)
  rw [Bool.eq_iff_iff]
  simp [h n hn, and_comm]

end NameSet

namespace Code

variable {known : NameSet}

/-- The walk adds the names of the readings that are not bound around the code. Inside a run the names
of the run count as bound. -/
theorem gather_eq_addFree {c : Code} {bound : List Name} {inRun : Bool} {found : NameSet}
    (hrun : inRun = true → ∀ m ∈ c.runNames, m ∈ bound) :
    c.gather known bound inRun found =
      found.addFree bound (Reading.needed known c.openReads) := by
  induction c generalizing bound inRun found with
  | done => rfl
  | op id ident o rest ih =>
      rw [gather, ih (by simp), openReads, Reading.needed_append, Reading.needed_behind,
        o.needed_readings, NameSet.addFree_append]
      exact (NameSet.addFree_filter (by simp)).symm
  | fn id ident params blk body rest ihb ih =>
      have hscope : ∀ m, m ∈ (if inRun then bound else ident :: rest.runNames ++ bound) ↔
          m ∈ ident :: rest.runNames ∨ m ∈ bound := by
        intro m
        cases inRun with
        | true => exact ⟨.inr, fun h => h.elim (hrun rfl m) fun h => h⟩
        | false => exact List.mem_append
      simp only [gather]
      generalize (if inRun then bound else ident :: rest.runNames ++ bound) = scope at hscope ⊢
      have hbody : ∀ n ∈ Reading.needed known body.openReads, n ∈ ident :: params ++ scope ↔
          decide (n ∉ params ++ ident :: rest.runNames) = false ∨ n ∈ bound := by
        intro n _
        simp only [List.mem_append, List.mem_cons, hscope, decide_eq_false_iff_not, not_not]
        tauto
      have hrest : ∀ n ∈ Reading.needed known rest.openReads, n ∈ ident :: scope ↔
          decide (n ≠ ident) = false ∨ n ∈ bound := by
        intro n hn
        obtain ⟨r, hr, -, rfl⟩ := Reading.mem_needed.mp hn
        have hout := not_mem_runNames_of_mem_openReads hr
        simp only [List.mem_cons, hscope, decide_eq_false_iff_not, not_not]
        tauto
      rw [ih, ihb (by simp), openReads, Reading.needed_append, Reading.needed_within,
        Reading.needed_behind, NameSet.addFree_append, NameSet.addFree_filter hbody,
        NameSet.addFree_filter hrest]
      intro _ m hm
      exact List.mem_cons_of_mem _ ((hscope m).mpr (.inl (List.mem_cons_of_mem _ hm)))
  | branch id ident cond yesBlk noBlk yes no rest ihy ihn ih =>
      have hcond : Reading.needed known (Rhs.branch cond yesBlk noBlk).readings = [cond] :=
        Reading.needed_zipIdx fun _ _ => rfl
      have hinner : ∀ {names : List Name}, ∀ n ∈ names, n ∈ bound ↔
          decide (n ∉ ([] : List Name)) = false ∨ n ∈ bound := by simp
      have hrest : ∀ n ∈ Reading.needed known rest.openReads, n ∈ ident :: bound ↔
          decide (n ≠ ident) = false ∨ n ∈ bound := by simp
      rw [gather, ih (by simp), ihn (by simp), ihy (by simp), openReads, Reading.needed_append,
        Reading.needed_append, Reading.needed_append, Reading.needed_within, Reading.needed_within,
        Reading.needed_behind, hcond, NameSet.addFree_append, NameSet.addFree_append,
        NameSet.addFree_append, NameSet.addFree_filter hinner, NameSet.addFree_filter hinner,
        NameSet.addFree_filter hrest]

/-- The free names are the names of the readings, each at its first place. -/
theorem freeNames_eq_ofList (known : NameSet) (c : Code) :
    c.freeNames known = NameSet.ofList (Reading.needed known c.openReads) := by
  rw [freeNames, gather_eq_addFree (by simp)]
  simp [NameSet.addFree, NameSet.ofList]
  rfl

end Code

/-! ## The order of the readings -/

namespace Reading

variable {ident : Name} {bound : List Name} {rs : List Reading} {r s : Reading} {j : Nat}

/-- Readings behind an instruction keep their order. -/
theorem later_lt_later (h : r.pos < s.pos) : r.later.pos < s.later.pos := by
  obtain ⟨pos, n, call⟩ := r
  obtain ⟨pos', n', call'⟩ := s
  cases pos' with
  | nil => exact absurd h (List.not_lt_nil pos)
  | cons k' pos' =>
      cases pos with
      | nil => exact List.nil_lt_cons _ _
      | cons k pos => simpa [later, List.cons_lt_cons_iff] using h

/-- Readings behind an instruction are sorted. -/
theorem sorted_behind (ident : Name) (h : rs.Pairwise (·.pos < ·.pos)) :
    (behind ident rs).Pairwise (·.pos < ·.pos) :=
  List.pairwise_map.mpr ((h.filter _).imp later_lt_later)

/-- Readings inside a block are sorted. -/
theorem sorted_within (bound : List Name) (j : Nat) (h : rs.Pairwise (·.pos < ·.pos)) :
    (within bound j rs).Pairwise (·.pos < ·.pos) := by
  refine List.pairwise_map.mpr ((h.filter _).imp fun hlt => ?_)
  simpa [inside, List.cons_lt_cons_iff] using hlt

/-- What stands behind an instruction comes after everything in it. -/
theorem lt_of_mem_behind (hrs : ∀ r ∈ rs, r.pos ≠ []) (h : r ∈ behind ident rs) (pos : Position) :
    0 :: pos < r.pos := by
  obtain ⟨⟨pos', n, call⟩, hs, -, rfl⟩ := mem_behind.mp h
  cases pos' with
  | nil => exact absurd rfl (hrs _ hs)
  | cons k pos' => exact List.cons_lt_cons_iff.mpr (.inl (Nat.succ_pos k))

/-- Readings behind an instruction have a position. -/
theorem pos_ne_nil_of_mem_behind (hrs : ∀ r ∈ rs, r.pos ≠ []) (h : r ∈ behind ident rs) :
    r.pos ≠ [] := by
  intro hnil
  have hlt := lt_of_mem_behind hrs h []
  exact List.not_lt_nil _ (hnil ▸ hlt)

/-- Readings inside a block have a position. -/
theorem pos_ne_nil_of_mem_within (h : r ∈ within bound j rs) : r.pos ≠ [] := by
  obtain ⟨s, -, -, rfl⟩ := mem_within.mp h
  exact List.cons_ne_nil 0 _

/-- The blocks of an instruction come in order, behind its operands. -/
theorem lt_of_mem_within {j' : Nat} (h : r ∈ within bound j rs) (hj : j' < j) (pos : Position) :
    0 :: j' :: pos < r.pos := by
  obtain ⟨s, -, -, rfl⟩ := mem_within.mp h
  simp [inside, List.cons_lt_cons_iff, hj]

end Reading

namespace Rhs

variable {β : Type}

/-- Readings of an instruction have a position. -/
theorem pos_ne_nil {rhs : Rhs β} {r : Reading} (h : r ∈ rhs.readings) : r.pos ≠ [] := by
  obtain ⟨j, hj, -⟩ := mem_readings.mp h
  rw [hj]
  exact List.cons_ne_nil 0 [j]

/-- The readings of an instruction are sorted. -/
theorem sorted_readings (rhs : Rhs β) : rhs.readings.Pairwise (·.pos < ·.pos) := by
  have hidx : rhs.operands.zipIdx.Pairwise (·.2 < ·.2) := by
    rw [← List.pairwise_map, List.zipIdx_map_snd]
    exact List.pairwise_lt_range'
  refine List.pairwise_map.mpr (hidx.imp fun hlt => ?_)
  simp [List.cons_lt_cons_iff, hlt]

end Rhs

namespace Code

/-- Every reading stands at some instruction. -/
theorem pos_ne_nil_of_mem_openReads {c : Code} {r : Reading} (h : r ∈ c.openReads) :
    r.pos ≠ [] := by
  induction c generalizing r with
  | done => exact absurd h List.not_mem_nil
  | op id ident o rest ih =>
      rcases List.mem_append.mp h with h | h
      · exact Rhs.pos_ne_nil h
      · exact Reading.pos_ne_nil_of_mem_behind (fun _ => ih) h
  | fn id ident params blk body rest _ ih =>
      rcases List.mem_append.mp h with h | h
      · exact Reading.pos_ne_nil_of_mem_within h
      · exact Reading.pos_ne_nil_of_mem_behind (fun _ => ih) h
  | branch id ident cond yesBlk noBlk yes no rest _ _ ih =>
      simp only [openReads, List.mem_append] at h
      rcases h with h | h | h | h
      · exact Rhs.pos_ne_nil h
      · exact Reading.pos_ne_nil_of_mem_within h
      · exact Reading.pos_ne_nil_of_mem_within h
      · exact Reading.pos_ne_nil_of_mem_behind (fun _ => ih) h

/-- The readings stand in the order of their positions. -/
theorem sorted_openReads (c : Code) : c.openReads.Pairwise (·.pos < ·.pos) := by
  induction c with
  | done => exact List.Pairwise.nil
  | op id ident o rest ih =>
      refine List.pairwise_append.mpr
        ⟨Rhs.sorted_readings _, Reading.sorted_behind ident ih, fun r hr s hs => ?_⟩
      obtain ⟨j, hj, -⟩ := Rhs.mem_readings.mp hr
      rw [hj]
      exact Reading.lt_of_mem_behind (fun _ => pos_ne_nil_of_mem_openReads) hs _
  | fn id ident params blk body rest ihb ih =>
      refine List.pairwise_append.mpr
        ⟨Reading.sorted_within _ 0 ihb, Reading.sorted_behind ident ih, fun r hr s hs => ?_⟩
      obtain ⟨r, -, -, rfl⟩ := Reading.mem_within.mp hr
      exact Reading.lt_of_mem_behind (fun _ => pos_ne_nil_of_mem_openReads) hs _
  | branch id ident cond yesBlk noBlk yes no rest ihy ihn ih =>
      have hrest : ∀ r ∈ Reading.behind ident rest.openReads, ∀ pos, 0 :: pos < r.pos :=
        fun r hr => Reading.lt_of_mem_behind (fun _ => pos_ne_nil_of_mem_openReads) hr
      simp only [openReads, List.pairwise_append, List.forall_mem_append]
      refine ⟨Rhs.sorted_readings _, ⟨Reading.sorted_within [] 1 ihy,
        ⟨Reading.sorted_within [] 2 ihn, Reading.sorted_behind ident ih, ?_⟩, ?_⟩, ?_⟩
      · intro r hr s hs
        obtain ⟨r, -, -, rfl⟩ := Reading.mem_within.mp hr
        exact hrest s hs _
      · intro r hr
        obtain ⟨r, -, -, rfl⟩ := Reading.mem_within.mp hr
        exact ⟨fun s hs => Reading.lt_of_mem_within hs Nat.one_lt_two _, fun s hs => hrest s hs _⟩
      · intro r hr
        -- the condition is the only operand
        obtain rfl := List.mem_singleton.mp hr
        exact ⟨fun s hs => Reading.lt_of_mem_within hs Nat.one_pos _,
          fun s hs => Reading.lt_of_mem_within hs Nat.two_pos _, fun s hs => hrest s hs _⟩

end Code

namespace NameSet

/-- The set of a list has its members. -/
theorem mem_ofList {names : List Name} {n : Name} : n ∈ ofList names ↔ n ∈ names := by
  rw [ofList, mem_insertAll]
  exact or_iff_right (not_mem_empty n)

/-- The set of a list with one more name at its end. -/
theorem toList_ofList_concat (names : List Name) (n : Name) :
    (ofList (names ++ [n])).toList =
      if n ∈ names then (ofList names).toList else (ofList names).toList ++ [n] := by
  rw [ofList, insertAll, List.foldl_append]
  simp only [List.foldl_cons, List.foldl_nil, toList_insert]
  exact if_congr mem_ofList rfl rfl

/-- Inserted one after the other, the names of a list stand in the order of their first places. -/
theorem ordered_ofList {α : Type} {lt : α → α → Prop} (f : α → Name) {l : List α}
    (hl : l.Pairwise lt) : (ofList (l.map f)).toList.Pairwise fun n m =>
      ∃ x ∈ l, f x = n ∧ ∀ y ∈ l, f y = m → lt x y := by
  induction l using List.reverseRecOn with
  | nil => exact List.Pairwise.nil
  | append_singleton l z ih =>
      obtain ⟨hl, -, hz⟩ := List.pairwise_append.mp hl
      have hold : (ofList (l.map f)).toList.Pairwise fun n m =>
          ∃ x ∈ l ++ [z], f x = n ∧ ∀ y ∈ l ++ [z], f y = m → lt x y := by
        refine (ih hl).imp fun ⟨x, hx, hn, hbefore⟩ => ?_
        refine ⟨x, List.mem_append_left _ hx, hn, fun y hy hm => ?_⟩
        rcases List.mem_append.mp hy with hy | hy
        · exact hbefore y hy hm
        · exact hz x hx y hy
      rw [List.map_append, List.map_singleton, toList_ofList_concat]
      split
      next => exact hold
      next hnew =>
        refine List.pairwise_append.mpr ⟨hold, List.pairwise_singleton _ _, ?_⟩
        intro n hn m hm
        obtain rfl := List.mem_singleton.mp hm
        obtain ⟨x, hx, rfl⟩ := List.mem_map.mp (mem_ofList.mp hn)
        refine ⟨x, List.mem_append_left _ hx, rfl, fun y hy hm => ?_⟩
        rcases List.mem_append.mp hy with hy | hy
        · exact absurd (hm ▸ List.mem_map_of_mem hy) hnew
        · exact hz x hx y hy

/-- Removing names is filtering the list. -/
theorem toList_eraseAll (s : NameSet) (names : List Name) :
    (s.eraseAll names).toList = s.toList.filter (· ∉ names) := by
  induction names generalizing s with
  | nil => simp [eraseAll]
  | cons n names ih =>
      rw [eraseAll, List.foldl_cons, ← eraseAll, ih, toList_erase, List.filter_filter]
      apply List.filter_congr
      intro m _
      simp [Bool.and_comm]

end NameSet

/-! ## Free names -/

namespace Arena

variable {a : Arena}

/-- What is needed at a position is a reading of the code that counts. -/
theorem neededAt_iff {c : Code} (hc : ∀ y ∈ c.children, a.Shows y.1 y.2) {known : NameSet} {n : Name}
    {pos : Position} : a.NeededAt known c.heads n pos ↔
      ∃ r ∈ c.openReads.filter (·.counts known), r.name = n ∧ r.pos = pos := by
  constructor
  · rintro ⟨call, hfree, hcounts⟩
    refine ⟨⟨pos, n, call⟩, List.mem_filter.mpr ⟨(mem_openReads hc).mpr hfree, ?_⟩, rfl, rfl⟩
    exact Reading.counts_iff.mpr hcounts
  · rintro ⟨r, hr, rfl, rfl⟩
    obtain ⟨hr, hcounts⟩ := List.mem_filter.mp hr
    exact ⟨r.call, (mem_openReads hc).mp hr, Reading.counts_iff.mp hcounts⟩

/-- The free names of code are those of the instructions it shows. -/
theorem listsFree_freeNames {c : Code} (hc : ∀ y ∈ c.children, a.Shows y.1 y.2) (known : NameSet) :
    a.ListsFree known c.heads (c.freeNames known).toList where
  mem_iff n := by
    rw [Code.freeNames_eq_ofList, NameSet.mem_toList, NameSet.mem_ofList, Reading.needed,
      List.mem_map]
    constructor
    · rintro ⟨r, hr, rfl⟩
      exact ⟨r.pos, (neededAt_iff hc).mpr ⟨r, hr, rfl, rfl⟩⟩
    · rintro ⟨pos, h⟩
      obtain ⟨r, hr, hn, -⟩ := (neededAt_iff hc).mp h
      exact ⟨r, hr, hn⟩
  nodup := (c.freeNames known).nodup
  ordered := by
    rw [Code.freeNames_eq_ofList]
    refine (NameSet.ordered_ofList _ (c.sorted_openReads.filter _)).imp ?_
    rintro n m ⟨r, hr, rfl, hfirst⟩
    refine ⟨r.pos, (neededAt_iff hc).mpr ⟨r, hr, rfl, rfl⟩, fun pos h => ?_⟩
    obtain ⟨s, hs, hm, rfl⟩ := (neededAt_iff hc).mp h
    exact hfirst s hs hm

end Arena

/-- **Free names by their occurrences.** Where the blocks that instructions lead to exist and lead to no
cycle, the free names from any instruction on are the names that are read there at a position where they
are not bound, each once, in the order of their first such positions. What stands from an instruction on
is that instruction and what follows it in its block. The free names of a function are those of its body
without its parameters. -/
theorem freeNamesFrom_listsFree (a : Arena) (known : NameSet) :
    (∀ start < a.records.size, a.Grounded (a.itemsFrom start) →
      ∃ free, a.freeNamesFrom known start = .ok free ∧
        a.ListsFree known (a.itemsFrom start) free.toList) ∧
    (a.Built → ∀ blk pre i post, a.items blk = pre ++ i :: post → a.itemsFrom i.id = i :: post) ∧
    ∀ params body, body < a.numBlocks → a.Grounded (a.items body) →
      ∃ free names, a.freeNames known body = .ok free ∧
        a.ListsFree known (a.items body) free.toList ∧
        a.functionFreeNames known params body = .ok names ∧
        names.toList = free.toList.filter (· ∉ params) := by
  refine ⟨?_, ?_, ?_⟩
  · intro start hstart hg
    obtain ⟨c, hc, hitems, hshown⟩ := hg.exists_codeFrom hstart
    refine ⟨c.freeNames known, Arena.freeNamesFrom_eq hc, ?_⟩
    rw [hitems]
    exact Arena.listsFree_freeNames hshown known
  · intro hb blk pre i post hi
    exact hb.orderly.itemsFrom_eq hi
  · intro params body hbody hg
    obtain ⟨c, hc, hitems, hshown⟩ := hg.exists_code hbody
    refine ⟨c.freeNames known, c.bodyFreeNames known params, Arena.freeNames_eq hc, ?_,
      Arena.functionFreeNames_eq hc, NameSet.toList_eraseAll _ params⟩
    rw [hitems]
    exact Arena.listsFree_freeNames hshown known

/-- Started at the second literal of a run, the walk finds the first one free: it was not entered. -/
theorem freeNamesFrom_listsFree_sample :
    (∃ free, (Arena.ofBlock Block.sample).freeNamesFrom ∅ 11 = .ok free ∧
      (Arena.ofBlock Block.sample).ListsFree ∅ ((Arena.ofBlock Block.sample).itemsFrom 11)
        free.toList ∧ free.toList = ["f", "a"]) ∧
    (∃ pre i post, (Arena.ofBlock Block.sample).items Arena.entry = pre ++ i :: post ∧ i.id = 11 ∧
      (Arena.ofBlock Block.sample).itemsFrom 11 = i :: post) ∧
    ∃ free names, (Arena.ofBlock Block.sample).freeNames ∅ 2 = .ok free ∧
      (Arena.ofBlock Block.sample).ListsFree ∅ ((Arena.ofBlock Block.sample).items 2) free.toList ∧
      (Arena.ofBlock Block.sample).functionFreeNames ∅ ["z"] 2 = .ok names ∧
      names.toList = ["f", "a"] := by
  have hshows := (Arena.ofBlock_unfolds Block.sample).shows
  have hblock : (Arena.ofBlock Block.sample).Reaches 2 :=
    .step (i := ⟨11, "g", .fn ["z"] 2⟩) .entry (by decide +kernel) (by decide)
  have hfrom : (Arena.ofBlock Block.sample).Grounded
      ((Arena.ofBlock Block.sample).itemsFrom 11) :=
    .of_reaches hshows.guarded (fun _ => hshows.no_cycle) .entry (by decide +kernel)
  have hbody : (Arena.ofBlock Block.sample).Grounded ((Arena.ofBlock Block.sample).items 2) :=
    .of_reaches hshows.guarded (fun _ => hshows.no_cycle) hblock (List.Subset.refl _)
  obtain ⟨hstart, hsuffix, hfunction⟩ := freeNamesFrom_listsFree (Arena.ofBlock Block.sample) ∅
  refine ⟨?_, ?_, ?_⟩
  · obtain ⟨free, hfree, hlists⟩ := hstart 11 (by decide +kernel) hfrom
    have hvalue : ((Arena.ofBlock Block.sample).freeNamesFrom ∅ 11).map NameSet.toList =
        .ok ["f", "a"] := by decide +kernel
    rw [hfree] at hvalue
    exact ⟨free, hfree, hlists, Except.ok.inj hvalue⟩
  · have hitems : (Arena.ofBlock Block.sample).items Arena.entry =
        ((Arena.ofBlock Block.sample).items Arena.entry).take 2 ++ ⟨11, "g", .fn ["z"] 2⟩ ::
          ((Arena.ofBlock Block.sample).items Arena.entry).drop 3 := by decide +kernel
    exact ⟨_, _, _, hitems, rfl, hsuffix (Arena.built_ofBlock _) _ _ _ _ hitems⟩
  · obtain ⟨free, names, hfree, hlists, hnames, hfilter⟩ :=
      hfunction ["z"] 2 (by decide +kernel) hbody
    have hvalue : ((Arena.ofBlock Block.sample).freeNames ∅ 2).map NameSet.toList =
        .ok ["f", "z", "a"] := by decide +kernel
    rw [hfree] at hvalue
    refine ⟨free, names, hfree, hlists, hnames, ?_⟩
    rw [hfilter, Except.ok.inj hvalue]
    decide

end ClosureConversion
