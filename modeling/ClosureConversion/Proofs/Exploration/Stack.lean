import ClosureConversion.Classification.Explore
import ClosureConversion.Proofs.Walks

/-!
# The stack of an explorer

An explorer pushes a body when it enters it and pops it when it leaves it. So every exploration that
succeeds ends with the bodies it began with, and none reports a body that was not left, or a frame of
a walk that was not closed (`Explorer.Balanced`). This holds of every arena, also of one whose links
and blocks make no sense, since it holds of each step and is kept by doing one step after another.
Hence the check at the end of the exploration never fails (`Arena.classify_tidy`).

The other thing that every arena has is an end to settling: a round is repeated exactly if it rejects
some candidate, and then with fewer of them (`Arena.settle_eq`).
-/

namespace ClosureConversion

/-- Dropping the elements with given names drops some, if these are names of elements and there are
any. -/
theorem length_filter_notMem_lt_iff {α : Type} {ident : α → Name} {l : List α} {names : List Name}
    (h : ∀ n ∈ names, n ∈ l.map ident) :
    (l.filter (ident · ∉ names)).length < l.length ↔ names ≠ [] := by
  rw [List.length_filter_lt_length_iff_exists]
  constructor
  · rintro ⟨x, -, hx⟩ rfl
    simp at hx
  · intro hne
    obtain ⟨n, hn⟩ := List.exists_mem_of_ne_nil _ hne
    obtain ⟨x, hx, rfl⟩ := List.mem_map.mp (h n hn)
    exact ⟨x, hx, by simpa using hn⟩

namespace Explorer

variable {α β : Type}

/-- What the exploration of a body does to a journey: with the body on top of its stack, it fails or
leaves a journey from whose stack the body is taken again. -/
theorem within_apply (ident : Name) (blk : BlockId) (x : Explorer α) (j : Journey) :
    within ident blk x j =
      if blk ∈ j.active.map (·.2) then .error (.cyclicBody ident blk)
      else x { j with active := (ident, blk) :: j.active } >>= fun r =>
        .ok (r.1, { r.2 with active := r.2.active.tail }) := by
  show (if blk ∈ j.active.map (·.2) then _ else _ : Explorer α) j = _
  by_cases h : blk ∈ j.active.map (·.2)
  · rw [if_pos h, if_pos h]
    rfl
  · rw [if_neg h, if_neg h]
    rfl

/-- An exploration that goes on with the result of another succeeds only if both do. -/
theorem bind_eq_ok {x : Explorer α} {f : α → Explorer β} {j j' : Journey} {v : β}
    (h : (x >>= f) j = .ok (v, j')) : ∃ u j₁, x j = .ok (u, j₁) ∧ f u j₁ = .ok (v, j') := by
  obtain ⟨⟨u, j₁⟩, hu, h⟩ := ClosureConversion.bind_eq_ok h
  exact ⟨u, j₁, hu, h⟩

/-- An explorer leaves the stack of bodies as it found it, and reports nothing that is left open. -/
structure Balanced (x : Explorer α) : Prop where
  active : ∀ {j v j'}, x j = .ok (v, j') → j'.active = j.active
  tidy : ∀ j, Tidy (x j)

namespace Balanced

/-- Nothing done. -/
protected theorem pure (v : α) : Balanced (pure v : Explorer α) where
  active := by
    intro j v' j' h
    cases h
    rfl
  tidy := fun _ => .ok _

/-- A step that enters no body. -/
theorem lift (t : Traced α) : Balanced (Explorer.lift t) where
  active := by
    intro j v j' h
    cases h
    rfl
  tidy := fun _ => .ok _

/-- A computation that knows of no stack. -/
theorem liftM {x : Except Fault α} (h : Tidy x) : Balanced (liftM x : Explorer α) where
  active := by
    intro j v j' hj
    obtain ⟨v', -, hj⟩ := ClosureConversion.bind_eq_ok hj
    cases hj
    rfl
  tidy := fun _ => h.bind fun _ _ => .ok _

/-- Steps one after the other. -/
theorem bind {x : Explorer α} {f : α → Explorer β} (h : Balanced x) (hf : ∀ v, Balanced (f v)) :
    Balanced (x >>= f) where
  active := by
    intro j v j' hj
    obtain ⟨v₁, j₁, hj₁, hj⟩ := bind_eq_ok hj
    exact ((hf v₁).active hj).trans (h.active hj₁)
  tidy := fun j => (h.tidy j).bind fun v _ => (hf v.1).tidy v.2

/-- What is pushed before a body is popped behind it. -/
theorem within {x : Explorer α} (h : Balanced x) (ident : Name) (blk : BlockId) :
    Balanced (Explorer.within ident blk x) where
  active := by
    intro j v j' hj
    rw [within_apply] at hj
    split at hj
    · cases hj
    · obtain ⟨⟨v₁, j₁⟩, hj₁, hj⟩ := ClosureConversion.bind_eq_ok hj
      cases hj
      exact congrArg List.tail (h.active hj₁)
  tidy := by
    intro j
    rw [within_apply]
    split
    · exact .error fun hopen => hopen
    · exact (h.tidy _).bind fun _ _ => .ok _

end Balanced

end Explorer

namespace Arena

open Explorer (Balanced)

variable {a : Arena} {enter : BlockId → Classification → Explorer Classification}

/-! ## Runs -/

/-- Trying candidates is balanced if exploring blocks is. -/
theorem tryAll_balanced (h : ∀ blk c, Balanced (enter blk c)) (candidates : List Literal)
    (c : Classification) : Balanced (a.tryAll enter candidates c) := by
  induction candidates generalizing c with
  | nil => exact .pure _
  | cons m rest ih =>
      refine (Balanced.lift _).bind fun _ => ?_
      refine ((h m.blk c).within m.ident m.blk).bind fun c' => ?_
      refine (Balanced.liftM (a.functionFreeNames_tidy _ _ _)).bind fun free => ?_
      split
      · exact ih c'
      · exact (Balanced.lift _).bind fun _ => (ih c').bind fun _ => .pure _

/-- Settling is balanced: each of its rounds is. -/
theorem settle_balanced (h : ∀ blk c, Balanced (enter blk c)) (candidates : List Literal)
    (c : Classification) : Balanced (a.settle enter candidates c) := by
  induction candidates using settle.induct with
  | case1 candidates ih =>
      rw [settle]
      refine (tryAll_balanced h candidates _).bind fun ⟨explored, rejected⟩ => ?_
      by_cases hless : (spared candidates rejected).length < candidates.length
      · simp only [if_pos hless]
        exact ih rejected hless
      · simp only [if_neg hless]
        exact .pure explored

/-- Making closures is balanced. -/
theorem closeOver_balanced (h : ∀ blk c, Balanced (enter blk c)) (run : List Literal)
    (c : Classification) : Balanced (a.closeOver enter run c) := by
  induction run generalizing c with
  | nil => exact .pure _
  | cons m rest ih =>
      rw [closeOver]
      split
      · exact ih c
      · refine ((h m.blk c).within m.ident m.blk).bind fun c' => ?_
        refine (Balanced.liftM (a.functionFreeNames_tidy _ _ _)).bind fun free => ?_
        exact (Balanced.lift _).bind fun c' => ih c'

/-- Classifying a run is balanced. -/
theorem classifyRun_balanced (h : ∀ blk c, Balanced (enter blk c)) (optimize : Bool)
    (run : List Literal) (c : Classification) : Balanced (a.classifyRun enter optimize run c) :=
  (settle_balanced h _ c).bind fun c' => closeOver_balanced h run c'

/-! ## Blocks -/

/-- What is needed behind a literal is found by walks, which leave no frame open. -/
theorem suffixNames_tidy (a : Arena) (known : NameSet) (earlier : List Literal) (ident : Name)
    (behind : List (RecordId × Record)) : Tidy (a.suffixNames known earlier ident behind) := by
  refine (a.chainFreeNames_tidy known behind).bind fun free hfree => ?_
  -- the earlier members add to the names found, whatever these are
  clear hfree
  induction earlier generalizing free with
  | nil => exact .ok free
  | cons e earlier ih =>
      rw [List.foldlM_cons]
      refine ((a.functionFreeNames_tidy _ _ _).bind fun _ _ => .ok _).bind fun free' _ => ?_
      exact ih free'

/-- Deciding the literals of a chain is balanced. -/
theorem decideAll_balanced (a : Arena) (earlier : List Literal) (l : List (RecordId × Record))
    (c : Classification) : Balanced (a.decideAll earlier l c) := by
  induction l generalizing earlier c with
  | nil => exact .pure _
  | cons x rest ih =>
      obtain ⟨id, ident, rhs, prev, next⟩ := x
      cases rhs with
      | op o => exact ih [] c
      | fn params blk =>
          refine (Balanced.liftM (a.suffixNames_tidy _ _ _ _)).bind fun suffix => ?_
          exact (Balanced.lift _).bind fun c' => ih _ c'
      | branch cond yes no => exact ih [] c

/-- Exploring a chain is balanced if exploring blocks is. -/
theorem exploreChain_balanced (h : ∀ blk c, Balanced (enter blk c)) (optimize inRun : Bool)
    (l : List (RecordId × Record)) (c : Classification) :
    Balanced (a.exploreChain optimize enter inRun l c) := by
  induction l generalizing inRun c with
  | nil => exact .pure _
  | cons x rest ih =>
      obtain ⟨id, ident, rhs, prev, next⟩ := x
      cases rhs with
      | op o => exact (Balanced.lift _).bind fun c' => ih false c'
      | fn params blk =>
          cases inRun with
          | true => exact ih true c
          | false => exact (classifyRun_balanced h optimize _ c).bind fun c' => ih true c'
      | branch cond yes no =>
          exact (h yes c).bind fun c' => (h no c').bind fun c' => ih false c'

/-- Exploring a block is balanced, whatever the arena and the fuel. -/
theorem exploreBlock_balanced (a : Arena) (optimize : Bool) (fuel : Nat) (blk : BlockId)
    (c : Classification) : Balanced (a.exploreBlock optimize fuel blk c) := by
  induction fuel generalizing blk c with
  | zero => exact ⟨fun h => (nomatch h), fun _ => .error fun hopen => hopen⟩
  | succ fuel ih =>
      refine (Balanced.liftM (a.requireBlock_tidy blk)).bind fun _ => ?_
      refine (exploreChain_balanced ih optimize false _ c).bind fun c' => ?_
      exact a.decideAll_balanced [] _ c'

/-- No exploration ends inside a body, whatever the arena: the classification never reports a body
that was not left, or a frame that was not closed. -/
theorem classify_tidy (a : Arena) (optimize : Bool) : Tidy (a.classify optimize) := by
  have hblock := a.exploreBlock_balanced optimize a.depthBound entry .empty
  have hexplore : Tidy (a.explore optimize ⟨[], []⟩) := by
    refine (hblock.tidy _).bind fun r hr => ?_
    obtain ⟨c, active, events⟩ := r
    obtain rfl : active = [] := hblock.active hr
    exact .ok _
  exact (hexplore.bind fun _ _ => .ok _).bind fun _ _ => .ok _

/-! ## The end of settling -/

/-- Only names of candidates are rejected. -/
theorem mem_of_mem_rejected {candidates : List Literal} {c : Classification} {j j' : Journey}
    {round : Classification × List Name} (h : a.tryAll enter candidates c j = .ok (round, j')) :
    ∀ n ∈ round.2, n ∈ candidates.map (·.ident) := by
  induction candidates generalizing c j j' round with
  | nil =>
      cases h
      exact fun n hn => absurd hn List.not_mem_nil
  | cons m rest ih =>
      obtain ⟨_, j₁, -, h⟩ := Explorer.bind_eq_ok h
      obtain ⟨c', j₂, -, h⟩ := Explorer.bind_eq_ok h
      obtain ⟨free, j₃, -, h⟩ := Explorer.bind_eq_ok h
      by_cases hfree : free.isEmpty = true
      · simp only [if_pos hfree] at h
        exact fun n hn => List.mem_cons_of_mem _ (ih h n hn)
      · simp only [if_neg hfree] at h
        obtain ⟨_, j₄, -, h⟩ := Explorer.bind_eq_ok h
        obtain ⟨others, j₅, hothers, h⟩ := Explorer.bind_eq_ok h
        cases h
        intro n hn
        rcases List.mem_cons.mp hn with rfl | hn
        · exact List.mem_cons_self
        · exact List.mem_cons_of_mem _ (ih hothers n hn)

/-- Settling repeats its rounds until one rejects nothing: the comparison of lengths that bounds the
recursion never ends it early. -/
theorem settle_eq (a : Arena) (enter : BlockId → Classification → Explorer Classification)
    (candidates : List Literal) (c : Classification) :
    a.settle enter candidates c = (do
      let (explored, rejected) ←
        a.tryAll enter candidates (c.supposing (candidates.map (·.ident)))
      if rejected.isEmpty then return explored
      else a.settle enter (spared candidates rejected) c) := by
  rw [settle]
  -- the two conditions agree only on the names that a round rejects, so the round is run first
  funext j
  show a.tryAll enter candidates _ j >>= _ = a.tryAll enter candidates _ j >>= _
  cases hround : a.tryAll enter candidates (c.supposing (candidates.map (·.ident))) j with
  | error e => rfl
  | ok r =>
      obtain ⟨⟨explored, rejected⟩, j'⟩ := r
      have hless : (spared candidates rejected).length < candidates.length ↔ rejected ≠ [] :=
        length_filter_notMem_lt_iff (mem_of_mem_rejected hround)
      cases rejected with
      | nil =>
          show (if _ then _ else _ : Explorer Classification) j' = _
          rw [if_neg fun h => hless.mp h rfl]
          rfl
      | cons n rejected =>
          show (if _ then _ else _ : Explorer Classification) j' = _
          rw [if_pos (hless.mpr (List.cons_ne_nil _ _))]
          rfl

end Arena

end ClosureConversion
