import ClosureConversion.Proofs.Exploration.Sites

/-!
# Literals in another order

Literals that stand one after the other see each other, so their order says nothing. `Block.Reordered`
relates two blocks that differ, at one place and at any depth, in the order of such literals. What a
classification asks of a block does not see the difference:

* which names are free, which are bound and which calls are in scope (`Block.Alike`);
* the literals, up to the order of literals in their bodies (`Block.Reordered.matched`);
* whether a literal is needed at its place (`Block.Reordered.needed_iff`). This one looks at the
  literals before and behind in different ways, and is the only one that rests on distinct names.
-/

namespace ClosureConversion

namespace Block

/-- A function literal, without what follows it. -/
structure Literal where
  name : Name
  params : List Name
  body : Block
deriving DecidableEq

/-- Literals one after the other, in front of a block. -/
def ofRun : List Literal → Block → Block
  | [], after => after
  | l :: run, after => .fn l.name l.params l.body (ofRun run after)

/-- The second block is the first with the literals `moved` in another order. They stand one after the
other somewhere in the block, at any depth: the members of a run, or some of them. -/
inductive Reordered (moved : List Literal) : Block → Block → Prop where
  | run {run run' : List Literal} (after : Block) : moved.Perm run → moved.Perm run' →
    Reordered moved (ofRun run after) (ofRun run' after)
  | op {rest rest' : Block} (ident : Name) (o : Operation) : Reordered moved rest rest' →
    Reordered moved (.op ident o rest) (.op ident o rest')
  | body {body body' : Block} (ident : Name) (params : List Name) (rest : Block) :
    Reordered moved body body' →
    Reordered moved (.fn ident params body rest) (.fn ident params body' rest)
  | next {rest rest' : Block} (ident : Name) (params : List Name) (body : Block) :
    Reordered moved rest rest' →
    Reordered moved (.fn ident params body rest) (.fn ident params body rest')
  | yes {yes yes' : Block} (ident cond : Name) (no rest : Block) : Reordered moved yes yes' →
    Reordered moved (.branch ident cond yes no rest) (.branch ident cond yes' no rest)
  | no {no no' : Block} (ident cond : Name) (yes rest : Block) : Reordered moved no no' →
    Reordered moved (.branch ident cond yes no rest) (.branch ident cond yes no' rest)
  | after {rest rest' : Block} (ident cond : Name) (yes no : Block) : Reordered moved rest rest' →
    Reordered moved (.branch ident cond yes no rest) (.branch ident cond yes no rest')

/-- Reorderings can be undone. -/
theorem Reordered.symm {moved : List Literal} {b b' : Block} (h : Reordered moved b b') :
    Reordered moved b' b := by
  induction h with
  | run after hp hp' => exact .run after hp' hp
  | op ident o _ ih => exact .op ident o ih
  | body ident params rest _ ih => exact .body ident params rest ih
  | next ident params body _ ih => exact .next ident params body ih
  | yes ident cond no rest _ ih => exact .yes ident cond no rest ih
  | no ident cond yes rest _ ih => exact .no ident cond yes rest ih
  | after ident cond yes no _ ih => exact .after ident cond yes no ih

/-! ## Names -/

/-- The same names are free, bound and in scope. -/
structure Alike (b b' : Block) : Prop where
  isFree : ∀ known n, b.IsFree known n ↔ b'.IsFree known n
  runNames : b.runNames.Perm b'.runNames
  literalNames : b.literalNames.Perm b'.literalNames
  boundNames : b.boundNames.Perm b'.boundNames
  calls : ∀ fns scope, b.CallsInScope fns scope ↔ b'.CallsInScope fns scope

namespace Alike

variable {b b' b'' body body' rest rest' yes yes' no no' : Block}

/-- A block is like itself. -/
theorem refl (b : Block) : b.Alike b :=
  ⟨fun _ _ => .rfl, .refl _, .refl _, .refl _, fun _ _ => .rfl⟩

/-- Blocks that are like a third one are alike. -/
theorem trans (h : b.Alike b') (h' : b'.Alike b'') : b.Alike b'' where
  isFree := fun known n => (h.isFree known n).trans (h'.isFree known n)
  runNames := h.runNames.trans h'.runNames
  literalNames := h.literalNames.trans h'.literalNames
  boundNames := h.boundNames.trans h'.boundNames
  calls := fun fns scope => (h.calls fns scope).trans (h'.calls fns scope)

/-- Blocks that are alike stay so behind a flat instruction. -/
theorem op (ident : Name) (o : Operation) (h : rest.Alike rest') :
    (Block.op ident o rest).Alike (.op ident o rest') where
  isFree := fun known n => by simp only [IsFree, h.isFree]
  runNames := .refl _
  literalNames := h.literalNames
  boundNames := h.boundNames.cons ident
  calls := fun fns scope => by simp only [CallsInScope, h.calls]

/-- Literals with bodies that are alike, before blocks that are alike. -/
theorem fn (ident : Name) (params : List Name) (hb : body.Alike body') (h : rest.Alike rest') :
    (Block.fn ident params body rest).Alike (.fn ident params body' rest') where
  isFree := fun known n => by
    simp only [IsFree, List.mem_cons, h.runNames.mem_iff, hb.isFree, h.isFree]
  runNames := h.runNames.cons ident
  literalNames := (hb.literalNames.append h.literalNames).cons ident
  boundNames := ((hb.boundNames.append_left params).append h.boundNames).cons ident
  calls := fun fns scope => by
    have hscope : ∀ n, n ∈ ident :: rest.runNames ++ scope ↔
        n ∈ ident :: rest'.runNames ++ scope := fun n =>
      ((h.runNames.cons ident).append_right scope).mem_iff
    simp only [CallsInScope, hb.calls, h.calls]
    exact and_congr (callsInScope_congr hscope body') (callsInScope_congr hscope rest')

/-- Conditionals with blocks that are alike, before blocks that are alike. -/
theorem branch (ident cond : Name) (hy : yes.Alike yes') (hn : no.Alike no')
    (h : rest.Alike rest') :
    (Block.branch ident cond yes no rest).Alike (.branch ident cond yes' no' rest') where
  isFree := fun known n => by simp only [IsFree, hy.isFree, hn.isFree, h.isFree]
  runNames := .refl _
  literalNames := (hy.literalNames.append hn.literalNames).append h.literalNames
  boundNames := ((hy.boundNames.append hn.boundNames).append h.boundNames).cons ident
  calls := fun fns scope => by simp only [CallsInScope, hy.calls, hn.calls, h.calls]

/-- Two literals change places. -/
theorem swap (l l' : Literal) (after : Block) :
    (ofRun [l, l'] after).Alike (ofRun [l', l] after) where
  isFree := fun known n => by
    simp only [ofRun, IsFree, Block.runNames, List.mem_cons]
    tauto
  runNames := .swap _ _ _
  literalNames := List.perm_append_comm_assoc (_ :: _) (_ :: _) _
  boundNames := List.perm_append_comm_assoc (_ :: _) (_ :: _) _
  calls := fun fns scope => by
    -- in either order both names are visible in both bodies and behind
    simp only [ofRun, CallsInScope, Block.runNames]
    rw [and_left_comm]
    refine and_congr ?_ (and_congr ?_ ?_)
    all_goals
      apply callsInScope_congr
      intro n
      simp only [List.mem_cons, List.mem_append]
      tauto

/-- The order of a run does not matter for what is free, bound and in scope. -/
theorem ofRun {run run' : List Literal} (hp : run.Perm run') (after : Block) :
    (Block.ofRun run after).Alike (Block.ofRun run' after) := by
  induction hp with
  | nil => exact refl after
  | cons l _ ih => exact fn l.name l.params (refl l.body) ih
  | swap l l' run => exact swap l' l (Block.ofRun run after)
  | trans _ _ ih ih' => exact ih.trans ih'

end Alike

namespace Reordered

variable {moved : List Literal} {b b' : Block}

/-- Reordered blocks are alike. -/
theorem alike (h : Reordered moved b b') : b.Alike b' := by
  induction h with
  | run after hp hp' => exact .ofRun (hp.symm.trans hp') after
  | op ident o _ ih => exact ih.op ident o
  | body ident params rest _ ih => exact .fn ident params ih (.refl rest)
  | next ident params body _ ih => exact .fn ident params (.refl body) ih
  | yes ident cond no rest _ ih => exact .branch ident cond ih (.refl no) (.refl rest)
  | no ident cond yes rest _ ih => exact .branch ident cond (.refl yes) ih (.refl rest)
  | after ident cond yes no _ ih => exact .branch ident cond (.refl yes) (.refl no) ih

/-- Reordering keeps literals unique. -/
theorem uniqueLiterals (h : Reordered moved b b') (hu : b.UniqueLiterals) : b'.UniqueLiterals := by
  intro f hf
  rw [← h.alike.boundNames.count_eq f]
  exact hu f (h.alike.literalNames.mem_iff.mpr hf)

/-- Reordering keeps calls in scope. -/
theorem callsInScope (h : Reordered moved b b') (hc : b.CallsInScope b.literalNames []) :
    b'.CallsInScope b'.literalNames [] :=
  ((h.alike.calls _ _).mp hc).anti fun _ hn => h.alike.literalNames.mem_iff.mpr hn

end Reordered

/-! ## Literals -/

/-- The literals of a block, at any depth. -/
def literals : Block → List Literal
  | .done => []
  | .op _ _ rest => rest.literals
  | .fn ident params body rest => ⟨ident, params, body⟩ :: (body.literals ++ rest.literals)
  | .branch _ _ yes no rest => yes.literals ++ no.literals ++ rest.literals

/-- The order of a run does not matter for its literals. -/
theorem literals_ofRun_perm {run run' : List Literal} (hp : run.Perm run') (after : Block) :
    (ofRun run after).literals.Perm (ofRun run' after).literals := by
  induction hp with
  | nil => exact .refl _
  | cons l _ ih => exact (ih.append_left _).cons l
  | swap l l' run => exact List.perm_append_comm_assoc (_ :: _) (_ :: _) _
  | trans _ _ ih ih' => exact ih.trans ih'

/-- The members of a run are literals. -/
theorem mem_literals_ofRun {run : List Literal} {l : Literal} (h : l ∈ run) (after : Block) :
    l ∈ (ofRun run after).literals := by
  induction run with
  | nil => exact absurd h List.not_mem_nil
  | cons l' run ih =>
      rcases List.mem_cons.mp h with rfl | h
      · exact List.mem_cons_self
      · exact List.mem_cons_of_mem _ (List.mem_append_right _ (ih h))

/-- The same literal, up to what is not seen from outside its body. -/
structure Literal.Alike (l l' : Literal) : Prop where
  name : l.name = l'.name
  params : l.params = l'.params
  body : l.body.Alike l'.body

/-- Every literal of the first list is alike one of the second. -/
def Matched (ls ls' : List Literal) : Prop := ∀ l ∈ ls, ∃ l' ∈ ls', l.Alike l'

namespace Matched

variable {ls ls' ms ms' : List Literal}

/-- What is part of other literals is matched by them. -/
theorem of_subset (h : ∀ l ∈ ls, l ∈ ls') : Matched ls ls' :=
  fun l hl => ⟨l, h l hl, rfl, rfl, .refl _⟩

/-- Literals match themselves. -/
theorem refl (ls : List Literal) : Matched ls ls := of_subset fun _ hl => hl

/-- Literals that are alike match, before literals that match. -/
theorem cons {l l' : Literal} (hl : l.Alike l') (h : Matched ls ls') :
    Matched (l :: ls) (l' :: ls') := by
  intro m hm
  rcases List.mem_cons.mp hm with rfl | hm
  · exact ⟨l', List.mem_cons_self, hl⟩
  · obtain ⟨m', hm', halike⟩ := h m hm
    exact ⟨m', List.mem_cons_of_mem _ hm', halike⟩

/-- Literals that match, one list after the other. -/
theorem append (h : Matched ls ls') (h' : Matched ms ms') : Matched (ls ++ ms) (ls' ++ ms') := by
  intro m hm
  rcases List.mem_append.mp hm with hm | hm
  · obtain ⟨m', hm', halike⟩ := h m hm
    exact ⟨m', List.mem_append_left _ hm', halike⟩
  · obtain ⟨m', hm', halike⟩ := h' m hm
    exact ⟨m', List.mem_append_right _ hm', halike⟩

end Matched

namespace Reordered

variable {moved : List Literal} {b b' : Block} {l : Literal}

/-- A literal that is moved is left as it is. -/
theorem mem_literals (h : Reordered moved b b') (hl : l ∈ moved) : l ∈ b.literals := by
  induction h with
  | run after hp _ => exact mem_literals_ofRun (hp.mem_iff.mp hl) after
  | op _ _ _ ih => exact ih
  | body _ _ _ _ ih => exact List.mem_cons_of_mem _ (List.mem_append_left _ ih)
  | next _ _ _ _ ih => exact List.mem_cons_of_mem _ (List.mem_append_right _ ih)
  | yes _ _ _ _ _ ih => exact List.mem_append_left _ (List.mem_append_left _ ih)
  | no _ _ _ _ _ ih => exact List.mem_append_left _ (List.mem_append_right _ ih)
  | after _ _ _ _ _ ih => exact List.mem_append_right _ ih

/-- Reordered blocks have matching literals. -/
theorem matched (h : Reordered moved b b') : Matched b.literals b'.literals := by
  induction h with
  | run after hp hp' =>
      have hperm := literals_ofRun_perm (hp.symm.trans hp') after
      exact .of_subset fun _ hl => hperm.mem_iff.mp hl
  | op _ _ _ ih => exact ih
  | body _ _ rest hb ih => exact .cons ⟨rfl, rfl, hb.alike⟩ (ih.append (.refl rest.literals))
  | next _ _ body _ ih => exact .cons ⟨rfl, rfl, .refl body⟩ (.append (.refl body.literals) ih)
  | yes _ _ no rest _ ih => exact (ih.append (.refl no.literals)).append (.refl rest.literals)
  | no _ _ yes rest _ ih => exact (Matched.append (.refl yes.literals) ih).append (.refl rest.literals)
  | after _ _ yes no _ ih => exact Matched.append (.refl (yes.literals ++ no.literals)) ih

end Reordered

/-! ## Needed literals -/

/-- A literal `f` of a block, at any depth, is needed at its place: by a member of its run before it or
by what follows it. `before` says that the members of the run so far need it. -/
def Needed (known : NameSet) (f : Name) : Prop → Block → Prop
  | _, .done => False
  | _, .op _ _ rest => rest.Needed known f False
  | before, .fn ident params body rest =>
    ((f = ident ∧ (rest.IsFree known f ∨ before)) ∨ body.Needed known f False) ∨
      rest.Needed known f (before ∨ (f ∉ params ∧ body.IsFree known f))
  | _, .branch _ _ yes no rest =>
    yes.Needed known f False ∨ no.Needed known f False ∨ rest.Needed known f False

/-- The names of a run are names of literals. -/
theorem runNames_subset_literalNames (b : Block) : ∀ n ∈ b.runNames, n ∈ b.literalNames := by
  induction b with
  | fn ident params body rest _ ih =>
      intro n hn
      rcases List.mem_cons.mp hn with rfl | hn
      · exact List.mem_cons_self
      · exact List.mem_cons_of_mem _ (List.mem_append_right _ (ih n hn))
  | _ => exact fun _ hn => absurd hn List.not_mem_nil

section Needed

variable {known : NameSet} {f : Name}

/-- It does not matter whether another member of the run stands behind a literal or before it. -/
theorem needed_behind_iff {l l' : Literal} {after : Block} (hne : l.name ≠ l'.name)
    (hafter : l.name ∉ after.runNames) (before : Prop) :
    (f = l.name ∧ ((ofRun [l'] after).IsFree known f ∨ before)) ↔
      f = l.name ∧ (after.IsFree known f ∨ before ∨ (f ∉ l'.params ∧ l'.body.IsFree known f)) := by
  refine and_congr_right ?_
  rintro rfl
  simp only [ofRun, IsFree, List.mem_cons, hne, hafter, or_self, not_false_eq_true, true_and]
  tauto

/-- Two literals change places. -/
theorem needed_swap (l l' : Literal) (after : Block) (before : Prop)
    (hn : (ofRun [l, l'] after).literalNames.Nodup) :
    (ofRun [l, l'] after).Needed known f before ↔ (ofRun [l', l] after).Needed known f before := by
  have hrun := runNames_subset_literalNames after
  obtain ⟨hl, hn⟩ := List.nodup_cons.mp hn
  obtain ⟨hl', -⟩ := List.nodup_cons.mp hn.of_append_right
  have hne : l.name ≠ l'.name := by
    intro h
    exact hl (List.mem_append_right _ (h ▸ List.mem_cons_self))
  have hafter : l.name ∉ after.runNames := by
    intro h
    apply hl
    exact List.mem_append_right _ (List.mem_cons_of_mem _ (List.mem_append_right _ (hrun _ h)))
  have hafter' : l'.name ∉ after.runNames := fun h => hl' (List.mem_append_right _ (hrun _ h))
  show ((f = l.name ∧ ((ofRun [l'] after).IsFree known f ∨ before)) ∨ _) ∨ _ ∨ _ ↔
    ((f = l'.name ∧ ((ofRun [l] after).IsFree known f ∨ before)) ∨ _) ∨ _ ∨ _
  rw [needed_behind_iff hne hafter, needed_behind_iff hne.symm hafter', or_left_comm,
    or_right_comm (a := before)]
  exact .rfl

/-- The order of a run does not matter for what is needed, if no two literals share a name. -/
theorem needed_ofRun {run run' : List Literal} (hp : run.Perm run') (after : Block) (before : Prop)
    (hn : (ofRun run after).literalNames.Nodup) :
    (ofRun run after).Needed known f before ↔ (ofRun run' after).Needed known f before := by
  induction hp generalizing before with
  | nil => exact .rfl
  | cons l hp ih =>
      have hrest := (List.nodup_cons.mp hn).2.of_append_right
      simp only [ofRun, Needed, ih _ hrest, (Alike.ofRun hp after).isFree]
  | swap l l' run => exact needed_swap l' l (ofRun run after) before hn
  | trans hp _ ih ih' =>
      exact (ih before hn).trans
        (ih' before ((Alike.ofRun hp after).literalNames.nodup_iff.mp hn))

/-- Whether a literal is needed does not depend on the order. -/
theorem Reordered.needed_iff {moved : List Literal} {b b' : Block} (h : Reordered moved b b')
    (before : Prop) (hn : b.literalNames.Nodup) :
    b.Needed known f before ↔ b'.Needed known f before := by
  induction h generalizing before with
  | run after hp hp' => exact needed_ofRun (hp.symm.trans hp') after before hn
  | op _ _ _ ih => exact ih False hn
  | body _ _ _ hb ih =>
      have hbody := (List.nodup_cons.mp hn).2.of_append_left
      simp only [Needed, ih _ hbody, hb.alike.isFree]
  | next _ _ _ hr ih =>
      have hrest := (List.nodup_cons.mp hn).2.of_append_right
      simp only [Needed, ih _ hrest, hr.alike.isFree]
  | yes _ _ _ _ _ ih => simp only [Needed, ih _ hn.of_append_left.of_append_left]
  | no _ _ _ _ _ ih => simp only [Needed, ih _ hn.of_append_left.of_append_right]
  | after _ _ _ _ _ ih => simp only [Needed, ih _ hn.of_append_right]

end Needed

end Block

end ClosureConversion
