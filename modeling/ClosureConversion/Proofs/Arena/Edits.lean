import ClosureConversion.Proofs.Arena.Links

/-!
# Arenas built by edits

An arena comes about by edits: new blocks, new records, detached records, other right-hand sides
(`Edit`). `Arena.build` carries out a sequence of them from the arena with an empty entry block.
Any record may be detached, also a sentinel, so a block need not be a chain between its sentinels.
What does hold of the links of every such arena is `Arena.Orderly`:

* `next?` and `prev?` are inverse to one another;
* the record behind another one has a greater number or is the bottom sentinel of a block;
* nothing stands before a top sentinel or behind a bottom sentinel.

Each operation is described by what it does to `next?` and `prev?`; from that, `Orderly.edit` says
that every edit keeps an arena orderly, and `orderly_build` that every sequence of edits does.
-/

namespace ClosureConversion

namespace Arena

variable {a : Arena} {id j x y : RecordId} {blk : BlockId} {b : Bounds}

/-! ## Neighbours -/

/-- The record behind a record. -/
def next? (a : Arena) (id : RecordId) : Option RecordId := (a.record? id).bind (·.next)

/-- The record before a record. -/
def prev? (a : Arena) (id : RecordId) : Option RecordId := (a.record? id).bind (·.prev)

/-- A record is the top sentinel of a block. -/
def IsTop (a : Arena) (id : RecordId) : Prop := ∃ blk b, a.bounds? blk = some b ∧ b.top = id

/-- A record is the bottom sentinel of a block. -/
def IsBottom (a : Arena) (id : RecordId) : Prop := ∃ blk b, a.bounds? blk = some b ∧ b.bottom = id

/-- Only a record of the arena has a successor. -/
theorem lt_size_of_next? (h : a.next? x = some y) : x < a.records.size := by
  obtain ⟨r, hr, -⟩ := Option.bind_eq_some_iff.mp h
  exact (Array.getElem?_eq_some_iff.mp hr).1

/-- Only a record of the arena has a predecessor. -/
theorem lt_size_of_prev? (h : a.prev? x = some y) : x < a.records.size := by
  obtain ⟨r, hr, -⟩ := Option.bind_eq_some_iff.mp h
  exact (Array.getElem?_eq_some_iff.mp hr).1

/-- The numbers below the size are those of the records. -/
theorem exists_record? (h : id < a.records.size) : ∃ r, a.record? id = some r :=
  ⟨a.records[id], Array.getElem?_eq_getElem h⟩

/-- Changing a record adds none. -/
@[simp] theorem size_modify (a : Arena) (id : RecordId) (f : Record → Record) :
    (a.modify id f).records.size = a.records.size :=
  Array.size_modify

/-- A change that leaves the record as it is leaves the arena as it is. -/
theorem modify_eq_self {f : Record → Record} (h : ∀ r, a.record? id = some r → f r = r) :
    a.modify id f = a := by
  have hrecords : a.records.modify id f = a.records := by
    apply Array.ext_getElem?
    intro j
    rw [Array.getElem?_modify]
    split
    next he =>
      subst he
      cases hr : a.records[id]? with
      | none => rfl
      | some r => exact congrArg some (h r hr)
    next => rfl
  rw [modify, hrecords]

/-- The successors after one record is changed. -/
theorem next?_modify (a : Arena) (id : RecordId) (f : Record → Record) (j : RecordId) :
    (a.modify id f).next? j =
      if j = id then (a.record? j).bind fun r => (f r).next else a.next? j := by
  unfold next?
  rw [record?_modify]
  split
  · rw [Option.bind_map]
    rfl
  · rfl

/-- The predecessors after one record is changed. -/
theorem prev?_modify (a : Arena) (id : RecordId) (f : Record → Record) (j : RecordId) :
    (a.modify id f).prev? j =
      if j = id then (a.record? j).bind fun r => (f r).prev else a.prev? j := by
  unfold prev?
  rw [record?_modify]
  split
  · rw [Option.bind_map]
    rfl
  · rfl

/-! ## Neighbours after an operation -/

/-- Another right-hand side leaves the successors. -/
@[simp] theorem next?_setRhs (a : Arena) (id : RecordId) (rhs : Rhs BlockId) (j : RecordId) :
    (a.setRhs id rhs).next? j = a.next? j := by
  rw [setRhs, next?_modify]
  split <;> rfl

/-- Another right-hand side leaves the predecessors. -/
@[simp] theorem prev?_setRhs (a : Arena) (id : RecordId) (rhs : Rhs BlockId) (j : RecordId) :
    (a.setRhs id rhs).prev? j = a.prev? j := by
  rw [setRhs, prev?_modify]
  split <;> rfl

/-- Set what stands behind a record, if there is such a record. -/
def linkNext (a : Arena) (place next : Option RecordId) : Arena :=
  match place with
  | some p => a.modify p ({ · with next := next })
  | none => a

/-- Set what stands before a record, if there is such a record. -/
def linkPrev (a : Arena) (place prev : Option RecordId) : Arena :=
  match place with
  | some p => a.modify p ({ · with prev := prev })
  | none => a

/-- Setting a link adds no record. -/
@[simp] theorem size_linkNext (a : Arena) (place next : Option RecordId) :
    (a.linkNext place next).records.size = a.records.size := by
  cases place <;> simp [linkNext]

/-- Setting a link adds no record. -/
@[simp] theorem size_linkPrev (a : Arena) (place prev : Option RecordId) :
    (a.linkPrev place prev).records.size = a.records.size := by
  cases place <;> simp [linkPrev]

/-- The successors after one is set. -/
theorem next?_linkNext {place : Option RecordId} (h : ∀ p ∈ place, p < a.records.size)
    (next : Option RecordId) (j : RecordId) :
    (a.linkNext place next).next? j = if place = some j then next else a.next? j := by
  cases place with
  | none => simp [linkNext]
  | some p =>
      obtain ⟨r, hr⟩ := exists_record? (h p rfl)
      rw [linkNext, next?_modify]
      by_cases hj : j = p
      · simp [hj, hr]
      · simp [hj, Ne.symm hj]

/-- The predecessors after one is set. -/
theorem prev?_linkPrev {place : Option RecordId} (h : ∀ p ∈ place, p < a.records.size)
    (prev : Option RecordId) (j : RecordId) :
    (a.linkPrev place prev).prev? j = if place = some j then prev else a.prev? j := by
  cases place with
  | none => simp [linkPrev]
  | some p =>
      obtain ⟨r, hr⟩ := exists_record? (h p rfl)
      rw [linkPrev, prev?_modify]
      by_cases hj : j = p
      · simp [hj, hr]
      · simp [hj, Ne.symm hj]

/-- Setting a successor leaves the predecessors. -/
@[simp] theorem prev?_linkNext (a : Arena) (place next : Option RecordId) (j : RecordId) :
    (a.linkNext place next).prev? j = a.prev? j := by
  cases place with
  | none => rfl
  | some p =>
      rw [linkNext, prev?_modify]
      split <;> rfl

/-- Setting a predecessor leaves the successors. -/
@[simp] theorem next?_linkPrev (a : Arena) (place prev : Option RecordId) (j : RecordId) :
    (a.linkPrev place prev).next? j = a.next? j := by
  cases place with
  | none => rfl
  | some p =>
      rw [linkPrev, next?_modify]
      split <;> rfl

/-- A new block is one more block. -/
@[simp] theorem numBlocks_newBlock (a : Arena) : a.newBlock.numBlocks = a.numBlocks + 1 :=
  Array.size_push ..

/-- A new block brings its two sentinels. -/
@[simp] theorem size_newBlock (a : Arena) : a.newBlock.records.size = a.records.size + 2 := by
  simp [newBlock]

/-- The top sentinel of a new block is linked to the bottom one, all else stays. -/
theorem next?_newBlock (a : Arena) (j : RecordId) :
    a.newBlock.next? j =
      if j = a.records.size then some (a.records.size + 1) else a.next? j := by
  unfold next?
  rw [record?_newBlock]
  by_cases h1 : j = a.records.size + 1
  · have hnone : a.record? j = none := Array.getElem?_eq_none (h1 ▸ Nat.le_succ _)
    rw [if_pos h1, if_neg (h1 ▸ Nat.succ_ne_self _), hnone]
    rfl
  · by_cases h2 : j = a.records.size
    · simp [h2]
    · simp [h1, h2]

/-- The bottom sentinel of a new block is linked back to the top one, all else stays. -/
theorem prev?_newBlock (a : Arena) (j : RecordId) :
    a.newBlock.prev? j =
      if j = a.records.size + 1 then some a.records.size else a.prev? j := by
  unfold prev?
  rw [record?_newBlock]
  by_cases h1 : j = a.records.size + 1
  · simp [h1]
  · by_cases h2 : j = a.records.size
    · have hnone : a.record? j = none := Array.getElem?_eq_none h2.ge
      rw [if_neg h1, if_pos h2, if_neg h1, hnone]
      rfl
    · simp [h1, h2]

/-- Detaching joins the neighbours of a record and clears its own links. -/
theorem detach_eq {r : Record} (hr : a.record? id = some r) :
    a.detach id = ((a.linkNext r.prev r.next).linkPrev r.next r.prev).modify id
      ({ · with prev := none, next := none }) := by
  unfold detach
  rw [hr]
  rfl

/-- Nothing is detached where there is no record. -/
theorem detach_of_size_le (h : a.records.size ≤ id) : a.detach id = a := by
  have hr : a.record? id = none := Array.getElem?_eq_none h
  unfold detach
  rw [hr]

/-- Detaching a record that is linked to nothing changes nothing. -/
theorem detach_eq_self (hn : a.next? id = none) (hp : a.prev? id = none) : a.detach id = a := by
  by_cases h : id < a.records.size
  · obtain ⟨r, hr⟩ := exists_record? h
    have hnext : r.next = none := by simpa [next?, hr] using hn
    have hprev : r.prev = none := by simpa [prev?, hr] using hp
    rw [detach_eq hr, hnext, hprev]
    apply modify_eq_self
    intro r' hr'
    obtain rfl := Option.some.inj (hr.symm.trans hr')
    cases r with
    | mk ident rhs prev next =>
        obtain rfl : next = none := hnext
        obtain rfl : prev = none := hprev
        rfl
  · exact detach_of_size_le (Nat.le_of_not_lt h)

/-- Detaching frees no record. -/
@[simp] theorem size_detach (a : Arena) (id : RecordId) :
    (a.detach id).records.size = a.records.size := by
  by_cases h : id < a.records.size
  · obtain ⟨r, hr⟩ := exists_record? h
    rw [detach_eq hr]
    simp
  · rw [detach_of_size_le (Nat.le_of_not_lt h)]

/-- Detaching removes no block. -/
@[simp] theorem numBlocks_detach (a : Arena) (id : RecordId) :
    (a.detach id).numBlocks = a.numBlocks := by
  unfold detach
  split
  · rfl
  · dsimp only
    split <;> split <;> rfl

/-- Detaching a record links its predecessor to its successor and clears its own link. -/
theorem next?_detach (hid : id < a.records.size) (hp : ∀ p ∈ a.prev? id, p < a.records.size)
    (j : RecordId) :
    (a.detach id).next? j =
      if j = id then none else if a.prev? id = some j then a.next? id else a.next? j := by
  obtain ⟨r, hr⟩ := exists_record? hid
  have hnext : a.next? id = r.next := by simp [next?, hr]
  have hprev : a.prev? id = r.prev := by simp [prev?, hr]
  rw [hprev] at hp ⊢
  rw [detach_eq hr, next?_modify, next?_linkPrev, next?_linkNext hp, hnext]
  by_cases hj : j = id
  · simp [hj]
  · simp [hj]

/-- Detaching a record links its successor back to its predecessor and clears its own link. -/
theorem prev?_detach (hid : id < a.records.size) (hn : ∀ n ∈ a.next? id, n < a.records.size)
    (j : RecordId) :
    (a.detach id).prev? j =
      if j = id then none else if a.next? id = some j then a.prev? id else a.prev? j := by
  obtain ⟨r, hr⟩ := exists_record? hid
  have hnext : a.next? id = r.next := by simp [next?, hr]
  have hprev : a.prev? id = r.prev := by simp [prev?, hr]
  rw [hnext] at hn ⊢
  rw [detach_eq hr, prev?_modify, prev?_linkPrev (by simpa using hn), prev?_linkNext, hprev]
  by_cases hj : j = id
  · simp [hj]
  · simp [hj]

/-- A new record is linked in between the bottom sentinel and what was before it. -/
theorem push_eq (hb : a.bounds? blk = some b) (ident : Name) (rhs : Rhs BlockId) :
    a.push blk ident rhs =
      (linkNext ⟨a.records.push ⟨ident, rhs, a.prev? b.bottom, some b.bottom⟩, a.blocks⟩
        (a.prev? b.bottom) (some a.records.size)).linkPrev (some b.bottom) (some a.records.size) := by
  unfold push
  rw [hb]
  dsimp only [prev?]
  cases (a.record? b.bottom).bind (·.prev) <;> rfl

/-- Appending to a block adds one record. -/
theorem size_push (hb : a.bounds? blk = some b) (ident : Name) (rhs : Rhs BlockId) :
    (a.push blk ident rhs).records.size = a.records.size + 1 := by
  rw [push_eq hb]
  simp

/-- Appending adds no block. -/
@[simp] theorem numBlocks_push (a : Arena) (blk : BlockId) (ident : Name) (rhs : Rhs BlockId) :
    (a.push blk ident rhs).numBlocks = a.numBlocks := by
  unfold push
  split
  · rfl
  · dsimp only
    split <;> rfl

/-- Nothing is appended to a block that does not exist. -/
theorem push_of_bounds?_eq_none (hb : a.bounds? blk = none) (ident : Name) (rhs : Rhs BlockId) :
    a.push blk ident rhs = a := by
  unfold push
  rw [hb]

/-- An appended record stands between what was the last one and the bottom sentinel. -/
theorem next?_push (hb : a.bounds? blk = some b)
    (hl : ∀ l ∈ a.prev? b.bottom, l < a.records.size) (ident : Name)
    (rhs : Rhs BlockId) (j : RecordId) :
    (a.push blk ident rhs).next? j =
      if a.prev? b.bottom = some j then some a.records.size
      else if j = a.records.size then some b.bottom else a.next? j := by
  have hgrown : ∀ prev, next? ⟨a.records.push ⟨ident, rhs, prev, some b.bottom⟩, a.blocks⟩ j =
      if j = a.records.size then some b.bottom else a.next? j := by
    intro prev
    simp only [next?, record?, Array.getElem?_push]
    split <;> simp
  rw [push_eq hb, next?_linkPrev, next?_linkNext, hgrown]
  intro l hmem
  simpa using Nat.lt_succ_of_lt (hl l hmem)

/-- Seen from behind, an appended record stands between the bottom sentinel and what was the last
one. -/
theorem prev?_push (hb : a.bounds? blk = some b) (hbot : b.bottom < a.records.size) (ident : Name)
    (rhs : Rhs BlockId) (j : RecordId) :
    (a.push blk ident rhs).prev? j =
      if b.bottom = j then some a.records.size
      else if j = a.records.size then a.prev? b.bottom else a.prev? j := by
  have hgrown : ∀ prev, prev? ⟨a.records.push ⟨ident, rhs, prev, some b.bottom⟩, a.blocks⟩ j =
      if j = a.records.size then prev else a.prev? j := by
    intro prev
    simp only [prev?, record?, Array.getElem?_push]
    split <;> simp
  rw [push_eq hb, prev?_linkPrev (by simpa using Nat.lt_succ_of_lt hbot), prev?_linkNext, hgrown]
  simp only [Option.some.injEq]

/-! ## Orderly links -/

/-- The links of an arena are orderly, whatever was detached from it. -/
structure Orderly (a : Arena) : Prop where
  next_iff : ∀ {x y}, a.next? x = some y ↔ a.prev? y = some x
  forward : ∀ {x y}, a.next? x = some y → x < y ∨ a.IsBottom y
  prev_top : ∀ {x}, a.IsTop x → a.prev? x = none
  next_bottom : ∀ {x}, a.IsBottom x → a.next? x = none
  lt_size : ∀ {blk b}, a.bounds? blk = some b → b.top < a.records.size ∧ b.bottom < a.records.size
  top_ne_bottom : ∀ {x}, a.IsTop x → ¬a.IsBottom x
  eq_of_top_eq : ∀ {blk blk' b b'}, a.bounds? blk = some b → a.bounds? blk' = some b' →
    b.top = b'.top → blk = blk'

namespace Orderly

/-- A successor is a record of the arena. -/
theorem next_lt (h : a.Orderly) (hn : a.next? x = some y) : y < a.records.size :=
  lt_size_of_prev? (h.next_iff.mp hn)

/-- A predecessor is a record of the arena. -/
theorem prev_lt (h : a.Orderly) (hp : a.prev? x = some y) : y < a.records.size :=
  lt_size_of_next? (h.next_iff.mpr hp)

/-- A bottom sentinel is a record of the arena. -/
theorem bottom_lt (h : a.Orderly) (hx : a.IsBottom x) : x < a.records.size := by
  obtain ⟨blk, b, hb, rfl⟩ := hx
  exact (h.lt_size hb).2

/-- A top sentinel is a record of the arena. -/
theorem top_lt (h : a.Orderly) (hx : a.IsTop x) : x < a.records.size := by
  obtain ⟨blk, b, hb, rfl⟩ := hx
  exact (h.lt_size hb).1

/-- A record without predecessor is the successor of none. -/
theorem next_ne (h : a.Orderly) (hx : a.prev? x = none) (y : RecordId) : a.next? y ≠ some x := by
  intro hn
  have hp := h.next_iff.mp hn
  rw [hx] at hp
  cases hp

/-- A record without successor is the predecessor of none. -/
theorem prev_ne (h : a.Orderly) (hx : a.next? x = none) (y : RecordId) : a.prev? y ≠ some x := by
  intro hp
  have hn := h.next_iff.mpr hp
  rw [hx] at hn
  cases hn

/-- A change that keeps the neighbours and the blocks keeps an arena orderly. -/
theorem congr {a' : Arena} (h : a.Orderly) (hn : ∀ j, a'.next? j = a.next? j)
    (hp : ∀ j, a'.prev? j = a.prev? j) (hs : a'.records.size = a.records.size)
    (hb : a'.blocks = a.blocks) : a'.Orderly := by
  have hbounds : ∀ blk, a'.bounds? blk = a.bounds? blk := fun blk => by simp [bounds?, hb]
  have htop : ∀ x, a'.IsTop x ↔ a.IsTop x := fun x => by simp [IsTop, hbounds]
  have hbottom : ∀ x, a'.IsBottom x ↔ a.IsBottom x := fun x => by simp [IsBottom, hbounds]
  constructor
  · simpa only [hn, hp] using @h.next_iff
  · simpa only [hn, hbottom] using @h.forward
  · simpa only [hp, htop] using @h.prev_top
  · simpa only [hn, hbottom] using @h.next_bottom
  · simpa only [hbounds, hs] using @h.lt_size
  · simpa only [htop, hbottom] using @h.top_ne_bottom
  · simpa only [hbounds] using @h.eq_of_top_eq

/-- Another right-hand side keeps an arena orderly. -/
protected theorem setRhs (h : a.Orderly) (id : RecordId) (rhs : Rhs BlockId) :
    (a.setRhs id rhs).Orderly :=
  h.congr (next?_setRhs a id rhs) (prev?_setRhs a id rhs) (size_modify ..) rfl

/-- Detaching keeps an arena orderly, whatever is detached. -/
protected theorem detach (h : a.Orderly) (id : RecordId) : (a.detach id).Orderly := by
  by_cases hid : id < a.records.size
  · have hn := next?_detach hid fun _ hp => h.prev_lt hp
    have hp := prev?_detach hid fun _ hn => h.next_lt hn
    have hbounds := bounds?_detach a id
    have htop : ∀ x, (a.detach id).IsTop x ↔ a.IsTop x := fun x => by simp [IsTop, hbounds]
    have hbottom : ∀ x, (a.detach id).IsBottom x ↔ a.IsBottom x := fun x => by
      simp [IsBottom, hbounds]
    constructor
    · intro x y
      rw [hn, hp]
      have hxy := @h.next_iff x y
      have hx := @h.next_iff x id
      have hy := @h.next_iff id y
      grind
    · intro x y hxy
      rw [hn] at hxy
      rw [hbottom]
      split_ifs at hxy with h1 h2
      · have hlt : x < id := (h.forward (h.next_iff.mpr h2)).resolve_right fun hb => by
          simp [h.next_bottom hb] at hxy
        exact (h.forward hxy).imp_left hlt.trans
      · exact h.forward hxy
    · intro x hx
      rw [htop] at hx
      rw [hp, if_neg (h.next_ne (h.prev_top hx) id), h.prev_top hx, ite_self]
    · intro x hx
      rw [hbottom] at hx
      rw [hn, if_neg (h.prev_ne (h.next_bottom hx) id), h.next_bottom hx, ite_self]
    · intro blk b hb
      rw [size_detach]
      exact h.lt_size ((hbounds blk).symm.trans hb)
    · intro x
      rw [htop, hbottom]
      exact h.top_ne_bottom
    · intro blk blk' b b' hb hb'
      exact h.eq_of_top_eq ((hbounds blk).symm.trans hb) ((hbounds blk').symm.trans hb')
  · rw [detach_of_size_le (Nat.le_of_not_lt hid)]
    exact h

/-- The top sentinels after a block is added. -/
theorem isTop_newBlock (a : Arena) (x : RecordId) :
    a.newBlock.IsTop x ↔ a.IsTop x ∨ x = a.records.size := by
  simp only [IsTop, bounds?_newBlock]
  constructor
  · rintro ⟨blk, b, hb, rfl⟩
    split at hb
    · obtain rfl := Option.some.inj hb
      exact .inr rfl
    · exact .inl ⟨blk, b, hb, rfl⟩
  · rintro (⟨blk, b, hb, rfl⟩ | rfl)
    · exact ⟨blk, b, by rw [if_neg (Nat.ne_of_lt (bounds?_lt hb)), hb], rfl⟩
    · exact ⟨a.numBlocks, _, if_pos rfl, rfl⟩

/-- The bottom sentinels after a block is added. -/
theorem isBottom_newBlock (a : Arena) (x : RecordId) :
    a.newBlock.IsBottom x ↔ a.IsBottom x ∨ x = a.records.size + 1 := by
  simp only [IsBottom, bounds?_newBlock]
  constructor
  · rintro ⟨blk, b, hb, rfl⟩
    split at hb
    · obtain rfl := Option.some.inj hb
      exact .inr rfl
    · exact .inl ⟨blk, b, hb, rfl⟩
  · rintro (⟨blk, b, hb, rfl⟩ | rfl)
    · exact ⟨blk, b, by rw [if_neg (Nat.ne_of_lt (bounds?_lt hb)), hb], rfl⟩
    · exact ⟨a.numBlocks, _, if_pos rfl, rfl⟩

/-- Outside the arena there are no links. -/
theorem eq_none_of_size_le (h : a.records.size ≤ j) : a.next? j = none ∧ a.prev? j = none := by
  have hnone : a.record? j = none := Array.getElem?_eq_none h
  simp [next?, prev?, hnone]

/-- A new block keeps an arena orderly. -/
protected theorem newBlock (h : a.Orderly) : a.newBlock.Orderly := by
  have hn := next?_newBlock a
  have hp := prev?_newBlock a
  constructor
  · intro x y
    rw [hn, hp]
    have hxy := @h.next_iff x y
    have hx := @eq_none_of_size_le a x
    have hy := @Orderly.next_lt a x y h
    have hy' := @Orderly.prev_lt a y x h
    grind
  · intro x y hxy
    rw [hn] at hxy
    rw [isBottom_newBlock]
    split_ifs at hxy with h1
    · exact .inr (.inr (Option.some.inj hxy).symm)
    · exact (h.forward hxy).imp_right .inl
  · intro x hx
    rw [hp]
    rcases (isTop_newBlock a x).mp hx with hx | rfl
    · rw [if_neg (Nat.lt_succ_of_lt (h.top_lt hx)).ne, h.prev_top hx]
    · rw [if_neg (Nat.succ_ne_self _).symm, (eq_none_of_size_le (Nat.le_refl _)).2]
  · intro x hx
    rw [hn]
    rcases (isBottom_newBlock a x).mp hx with hx | rfl
    · rw [if_neg (h.bottom_lt hx).ne, h.next_bottom hx]
    · rw [if_neg (Nat.succ_ne_self _), (eq_none_of_size_le (Nat.le_succ _)).1]
  · intro blk b hb
    rw [size_newBlock]
    rw [bounds?_newBlock] at hb
    split_ifs at hb with h1
    · obtain rfl := Option.some.inj hb
      exact ⟨by simp, by simp⟩
    · exact (h.lt_size hb).imp (Nat.lt_add_right 2) (Nat.lt_add_right 2)
  · intro x hx hb
    rcases (isTop_newBlock a x).mp hx with hx | hx <;>
      rcases (isBottom_newBlock a x).mp hb with hb | hb
    · exact h.top_ne_bottom hx hb
    · exact (Nat.lt_succ_of_lt (h.top_lt hx)).ne hb
    · exact (h.bottom_lt hb).ne hx
    · exact Nat.succ_ne_self _ (hb.symm.trans hx)
  · intro blk blk' b b' hb hb' he
    rw [bounds?_newBlock] at hb hb'
    split_ifs at hb hb' with h1 h2 h2
    · exact h1.trans h2.symm
    · obtain rfl := Option.some.inj hb
      exact absurd he (h.lt_size hb').1.ne'
    · obtain rfl := Option.some.inj hb'
      exact absurd he (h.lt_size hb).1.ne
    · exact h.eq_of_top_eq hb hb' he

/-- Appending keeps an arena orderly: the new record has the highest number. -/
protected theorem push (h : a.Orderly) (blk : BlockId) (ident : Name) (rhs : Rhs BlockId) :
    (a.push blk ident rhs).Orderly := by
  cases hb : a.bounds? blk with
  | none =>
      rw [push_of_bounds?_eq_none hb]
      exact h
  | some b =>
      have hbot := (h.lt_size hb).2
      have hbottom' : a.IsBottom b.bottom := ⟨blk, b, hb, rfl⟩
      have hn := next?_push hb (fun _ hl => h.prev_lt hl) ident rhs
      have hp := prev?_push hb hbot ident rhs
      have hbounds := bounds?_push a blk ident rhs
      have htop : ∀ x, (a.push blk ident rhs).IsTop x ↔ a.IsTop x := fun x => by
        simp [IsTop, hbounds]
      have hbottom : ∀ x, (a.push blk ident rhs).IsBottom x ↔ a.IsBottom x := fun x => by
        simp [IsBottom, hbounds]
      constructor
      · intro x y
        rw [hn, hp]
        have hxy := @h.next_iff x y
        have hx := @h.next_iff x b.bottom
        have hy := @Orderly.next_lt a x y h
        have hx' := @Orderly.prev_lt a y x h
        have hl := @Orderly.prev_lt a b.bottom
        grind
      · intro x y hxy
        rw [hn] at hxy
        rw [hbottom]
        split_ifs at hxy with h1 h2
        · exact .inl (Option.some.inj hxy ▸ h.prev_lt h1)
        · exact .inr (Option.some.inj hxy ▸ hbottom')
        · exact h.forward hxy
      · intro x hx
        rw [htop] at hx
        have hne : b.bottom ≠ x := fun he => h.top_ne_bottom hx (he ▸ hbottom')
        rw [hp, if_neg hne, if_neg (h.top_lt hx).ne, h.prev_top hx]
      · intro x hx
        rw [hbottom] at hx
        rw [hn, if_neg (h.prev_ne (h.next_bottom hx) _), if_neg (h.bottom_lt hx).ne, h.next_bottom hx]
      · intro blk' b' hb'
        rw [size_push hb]
        exact (h.lt_size ((hbounds blk').symm.trans hb')).imp Nat.lt_succ_of_lt Nat.lt_succ_of_lt
      · intro x
        rw [htop, hbottom]
        exact h.top_ne_bottom
      · intro blk₁ blk₂ b₁ b₂ h₁ h₂
        exact h.eq_of_top_eq ((hbounds blk₁).symm.trans h₁) ((hbounds blk₂).symm.trans h₂)

/-- The arena with nothing but an empty entry is orderly. -/
protected theorem empty : Orderly Arena.empty := by
  have h : Orderly ⟨#[], #[]⟩ := by
    constructor <;> simp [next?, prev?, record?, IsTop, IsBottom, bounds?]
  exact h.newBlock

end Orderly

end Arena

/-! ## Sequences of edits -/

/-- A change of an arena. -/
inductive Edit where
  | newBlock
  | push (blk : BlockId) (ident : Name) (rhs : Rhs BlockId)
  | detach (id : RecordId)
  | setRhs (id : RecordId) (rhs : Rhs BlockId)
  | markIndirect (id : RecordId)
deriving DecidableEq, Repr

namespace Arena

variable {a : Arena}

/-- Carry out an edit. One that does not apply changes nothing. -/
def edit (a : Arena) : Edit → Arena
  | .newBlock => a.newBlock
  | .push blk ident rhs => a.push blk ident rhs
  | .detach id => a.detach id
  | .setRhs id rhs => a.setRhs id rhs
  | .markIndirect id => (a.markIndirect? id).getD a

/-- The arena after a sequence of edits, from the one with an empty entry block on. -/
def build (edits : List Edit) : Arena := edits.foldl edit empty

/-- Marking a record sets its right-hand side, if it does anything. -/
theorem edit_markIndirect (a : Arena) (id : RecordId) :
    a.edit (.markIndirect id) = a ∨ ∃ rhs, a.edit (.markIndirect id) = a.setRhs id rhs := by
  simp only [edit, markIndirect?]
  cases (a.record? id).bind (·.rhs.indirect?) with
  | none => exact .inl rfl
  | some rhs => exact .inr ⟨rhs, rfl⟩

/-- Every edit keeps an arena orderly. -/
protected theorem Orderly.edit (h : a.Orderly) (e : Edit) : (a.edit e).Orderly := by
  cases e with
  | newBlock => exact h.newBlock
  | push blk ident rhs => exact h.push blk ident rhs
  | detach id => exact h.detach id
  | setRhs id rhs => exact h.setRhs id rhs
  | markIndirect id =>
      rcases a.edit_markIndirect id with he | ⟨rhs, he⟩
      · rw [he]
        exact h
      · rw [he]
        exact h.setRhs id rhs

/-- Every arena built by edits is orderly, also one with detached sentinels. -/
theorem orderly_build (edits : List Edit) : (build edits).Orderly := by
  suffices h : ∀ a : Arena, a.Orderly → (edits.foldl edit a).Orderly from h _ .empty
  induction edits with
  | nil => exact fun _ h => h
  | cons e edits ih => exact fun a h => ih _ (h.edit e)

/-- An arena that comes about by edits. -/
def Built (a : Arena) : Prop := ∃ edits, a = build edits

namespace Built

/-- The first arena comes about without edits. -/
protected theorem empty : Built Arena.empty := ⟨[], rfl⟩

/-- What comes about by edits still does after one more. -/
protected theorem edit (h : a.Built) (e : Edit) : (a.edit e).Built := by
  obtain ⟨edits, rfl⟩ := h
  exact ⟨edits ++ [e], by simp [build]⟩

/-- Whatever comes about by edits is orderly. -/
theorem orderly (h : a.Built) : a.Orderly := by
  obtain ⟨edits, rfl⟩ := h
  exact orderly_build edits

end Built

end Arena

end ClosureConversion
