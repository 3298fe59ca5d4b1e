import ClosureConversion.Proofs.Classification

/-!
# The members of a run

A literal sees the members of its run before it and what follows it, the rest of the run included. The
two views together do not depend on where in the run it stands: a closure record is made of a member
exactly if another member of the run or what follows the run needs it (`Arena.RunForm`).
-/

namespace ClosureConversion

namespace Code

variable {c : Code} {known : NameSet} {n : Name}

/-- What is free in code is free in a member of its first run or behind the run, and not bound by the
run. -/
theorem isFree_iff_run :
    c.IsFree known n ↔
      n ∉ c.runNames ∧ ((∃ m ∈ c.run, n ∈ m.freeNames known) ∨ c.afterRun.IsFree known n) := by
  induction c with
  | fn id ident params blk body rest _ ih =>
      simp only [isFree_fn, runNames, run, afterRun, List.mem_cons, exists_eq_or_imp]
      refine and_congr_right fun hn => ?_
      have hrest : n ∉ rest.runNames := fun h => hn (.inr h)
      rw [ih, and_iff_right hrest, Member.mem_freeNames, and_comm (a := n ∉ params), or_assoc]
  | _ => simp [runNames, run, afterRun]

/-- Literals do not begin with something else. -/
theorem eq_nil_of_cons_eq {i : Item} {items l post : List Item} (hi : i.rhs.isFn = false)
    (hh : i :: items = l ++ post) (hl : ∀ j ∈ l, j.rhs.isFn = true) : l = [] := by
  cases l with
  | nil => rfl
  | cons j l =>
      obtain ⟨rfl, -⟩ := List.cons.inj hh
      exact absurd (hi.symm.trans (hl i List.mem_cons_self)) Bool.false_ne_true

/-- Where the literals that code begins with end, what follows its run begins. -/
theorem run_of_heads {l post : List Item} (hh : c.heads = l ++ post)
    (hl : ∀ i ∈ l, i.rhs.isFn = true) (hpost : ∀ i ∈ post.head?, i.rhs.isFn = false) :
    c.run.map (·.item) = l ∧ c.afterRun.heads = post := by
  induction c generalizing l with
  | done =>
      obtain ⟨rfl, rfl⟩ := List.append_eq_nil_iff.mp hh.symm
      exact ⟨rfl, rfl⟩
  | op id ident o rest _ =>
      obtain rfl := eq_nil_of_cons_eq rfl hh hl
      exact ⟨rfl, hh⟩
  | branch id ident cond yesBlk noBlk yes no rest _ _ _ =>
      obtain rfl := eq_nil_of_cons_eq rfl hh hl
      exact ⟨rfl, hh⟩
  | fn id ident params blk body rest _ ih =>
      cases l with
      | nil =>
          have hi := hpost ⟨id, ident, .fn params blk⟩ (by rw [← List.nil_append post, ← hh]; rfl)
          exact absurd hi.symm Bool.false_ne_true
      | cons i l =>
          obtain ⟨rfl, hrest⟩ := List.cons.inj hh
          obtain ⟨hrun, hafter⟩ := ih hrest fun i hi => hl i (List.mem_cons_of_mem _ hi)
          exact ⟨congrArg (_ :: ·) hrun, hafter⟩

/-- What is nested behind the first run is nested in the code. -/
theorem nested_afterRun (c : Code) : c.afterRun.nested.Sublist c.nested := by
  induction c with
  | fn id ident params blk body rest _ ih => exact ih.trans (List.sublist_append_right _ _)
  | _ => exact .refl _

/-- The bodies of the first run are held by the code. -/
theorem body_mem_children {m : Member} (hm : m ∈ c.run) : (m.blk, m.body) ∈ c.children := by
  induction c with
  | fn id ident params blk body rest _ ih =>
      rcases List.mem_cons.mp hm with rfl | hm
      · exact List.mem_cons_self
      · exact List.mem_cons_of_mem _ (ih hm)
  | _ => exact absurd hm List.not_mem_nil

/-- The members of a block are its items that are literals. -/
theorem map_item_members (c : Code) :
    c.members.map (·.item) = c.heads.filter (·.rhs.isFn) := by
  induction c with
  | done => rfl
  | op id ident o rest ih => exact ih
  | branch id ident cond yesBlk noBlk yes no rest _ _ ih => exact ih
  | fn id ident params blk body rest _ ih =>
      rw [members_fn, List.map_cons, ih]
      rfl

/-- The literals of one block are among all. -/
theorem members_sublist_literals {blk : BlockId} {x : BlockId × Code} (hx : x ∈ c.blocks blk) :
    x.2.members.Sublist c.literals := by
  have hsites : c.sites = (c.blocks blk).flatMap (·.2.ownSites []) := by
    rw [sites, innerSites_eq_flatMap]
    rfl
  rw [literals, hsites]
  have hmem := List.mem_map_of_mem (f := fun y : BlockId × Code => y.2.ownSites []) hx
  exact (List.sublist_flatten_of_mem hmem).map (·.member)

end Code

/-- What ends with a run that something else stands before ends with no longer one. -/
theorem rtakeWhile_run {pre run : List Item} (hpre : ∀ i ∈ pre.getLast?, i.rhs.isFn = false)
    (hrun : ∀ i ∈ run, i.rhs.isFn = true) : (pre ++ run).rtakeWhile (·.rhs.isFn) = run := by
  have hself : run.rtakeWhile (·.rhs.isFn) = run := List.rtakeWhile_eq_self_iff.mpr hrun
  induction pre using List.reverseRecOn with
  | nil => exact hself
  | append_singleton pre i _ =>
      have hi : i.rhs.isFn = false := hpre i List.getLast?_concat
      rw [List.append_assoc, List.singleton_append,
        rtakeWhile_append_cons (p := fun i : Item => i.rhs.isFn) hi, hself]

/-- Something else in a list with an element in the middle is something in the list without it. -/
theorem exists_other_iff {α : Type} {l l' : List α} {x : α} {P : α → Prop} (hx : x ∉ l ++ l') :
    (∃ y ∈ l ++ x :: l', y ≠ x ∧ P y) ↔ ∃ y ∈ l ++ l', P y := by
  have hmem : ∀ y, y ∈ l ++ x :: l' ↔ y = x ∨ y ∈ l ++ l' := by simp [or_left_comm]
  constructor
  · rintro ⟨y, hy, hne, hp⟩
    exact ⟨y, ((hmem y).mp hy).resolve_left hne, hp⟩
  · rintro ⟨y, hy, hp⟩
    exact ⟨y, (hmem y).mpr (.inr hy), fun he => hx (he ▸ hy), hp⟩

namespace Arena

/-- The items `front` and `last` of a block are literals, and the items next to them are not. -/
structure RunAt (a : Arena) (blk : BlockId) (pre front : List Item) (last : Item)
    (post : List Item) : Prop where
  items : a.items blk = pre ++ ((front ++ [last]) ++ post)
  isFn : ∀ i ∈ front ++ [last], i.rhs.isFn = true
  before : ∀ i ∈ pre.getLast?, i.rhs.isFn = false
  behind : ∀ i ∈ post.head?, i.rhs.isFn = false

/-- The items of a block with a run in it. -/
theorem RunAt.items_eq {a : Arena} {blk : BlockId} {pre front post : List Item} {last : Item}
    (h : a.RunAt blk pre front last post) : a.items blk = (pre ++ front) ++ last :: post := by
  rw [h.items, List.append_assoc, List.append_assoc]
  rfl

/-- A name is free in the function literal `i`. -/
def FreeIn (a : Arena) (known : NameSet) (i : Item) (n : Name) : Prop :=
  ∃ params blk free, i.rhs = .fn params blk ∧ a.functionFreeNames known params blk = .ok free ∧
    n ∈ free

/-- The free names of what follows the item `i`. -/
def FreeBehind (a : Arena) (known : NameSet) (i : Item) (free : NameSet) : Prop :=
  ∃ r next, a.record? i.id = some r ∧ r.next = some next ∧ a.freeNamesFrom known next = .ok free

/-- The decisions on the members of a run that ends with `last`: `behind` are the free names of what
follows it. -/
structure RunForm (a : Arena) (c : Classification) (run : List Item) (last : Item)
    (behind : NameSet) : Prop where
  following : a.FreeBehind c.known last behind
  decided : ∀ i ∈ run, ∃ d, c.decisions.get? i.id = some d ∧ d.name = i.ident ∧
    ((∃ captures, d.action = .makeClosure captures) ↔
      (∃ j ∈ run, j ≠ i ∧ a.FreeIn c.known j i.ident) ∨ i.ident ∈ behind)

namespace Unfolds

variable {a : Arena} {code : Code} {x : BlockId × Code} {pre l l' post front : List Item}
  {last : Item} {s : Site} {known behind : NameSet} {n : Name}

/-- No two literals of a run share their name. -/
theorem nodup_run (h : a.Unfolds code) (hn : (code.literals.map (·.ident)).Nodup)
    (hx : x ∈ code.blocks entry) (hi : a.items x.1 = pre ++ (l ++ post))
    (hl : ∀ i ∈ l, i.rhs.isFn = true) : (l.map (·.ident)).Nodup := by
  have hsub : l.Sublist (a.items x.1) := by
    rw [hi]
    exact (List.sublist_append_left l post).trans (List.sublist_append_right pre _)
  have hmembers := hsub.filter (·.rhs.isFn)
  rw [List.filter_eq_self.mpr hl, (h.shows x hx).2, ← Code.map_item_members] at hmembers
  have hnodup := ((Code.members_sublist_literals hx).map (·.ident)).nodup hn
  apply (hmembers.map (·.ident)).nodup
  rw [List.map_map]
  exact hnodup

/-- What is free in an item is free in its literal. -/
theorem freeIn_item (h : a.Unfolds code) (hx : x ∈ code.blocks entry) {m : Member}
    (hbody : (m.blk, m.body) ∈ x.2.nested) :
    a.FreeIn known m.item n ↔ n ∈ m.freeNames known := by
  have hblock := Code.blocks_subset_of_mem_blocks hx (List.mem_cons_of_mem _ hbody)
  have hfree : a.functionFreeNames known m.params m.blk = .ok (m.freeNames known) :=
    h.functionFreeNames_eq hblock known m.params
  constructor
  · rintro ⟨params, blk, free, hrhs, hok, hmem⟩
    obtain ⟨rfl, rfl⟩ := Rhs.fn.inj hrhs
    rw [hfree] at hok
    exact Except.ok.inj hok ▸ hmem
  · exact fun hmem => ⟨_, _, _, rfl, hfree, hmem⟩

/-- What follows the run of a member is what follows the last literal of the run. -/
theorem mem_behind_iff (h : a.Unfolds code) (hx : x ∈ code.blocks entry)
    (hs : s.At [] x.2 (pre ++ l) (l' ++ post)) (hl : ∀ i ∈ l', i.rhs.isFn = true)
    (hpost : ∀ i ∈ post.head?, i.rhs.isFn = false) (hlast : x.2.heads = front ++ last :: post)
    (hbehind : a.FreeBehind known last behind) :
    n ∈ behind ↔ s.member.rest.afterRun.IsFree known n := by
  obtain ⟨r, next, hr, hnext, hfrom⟩ := hbehind
  obtain ⟨-, hafter⟩ := Code.run_of_heads hs.rest hl hpost
  obtain ⟨r', next', hr', hnext', hfrom'⟩ := h.freeNamesFrom_eq hx (hafter.symm ▸ hlast)
    (s.member.rest.nested_afterRun.trans hs.restNested)
  obtain rfl : r' = r := Option.some.inj (hr'.symm.trans hr)
  obtain rfl : next' = next := Option.some.inj (hnext'.symm.trans hnext)
  obtain rfl := Except.ok.inj ((hfrom' known).symm.trans hfrom)
  exact Code.mem_freeNames

/-- A member of a run is needed behind its place if another member or what follows the run needs it:
the members before it are seen one by one, those behind it as part of what follows it. -/
theorem mem_suffix_iff (h : a.Unfolds code) (hx : x ∈ code.blocks entry)
    (hs : s.At [] x.2 (pre ++ l) (l' ++ post)) (hl : ∀ i ∈ l ++ l', i.rhs.isFn = true)
    (hpre : ∀ i ∈ pre.getLast?, i.rhs.isFn = false) (hpost : ∀ i ∈ post.head?, i.rhs.isFn = false)
    (hout : s.member.ident ∉ (l ++ l').map (·.ident)) :
    s.member.ident ∈ s.suffix known ↔
      (∃ j ∈ l ++ l', a.FreeIn known j s.member.ident) ∨
        s.member.rest.afterRun.IsFree known s.member.ident := by
  obtain ⟨hrun, -⟩ := Code.run_of_heads hs.rest (fun i hi => hl i (List.mem_append_right _ hi)) hpost
  have hbefore : (∃ e ∈ s.earlier, s.member.ident ∈ e.freeNames known) ↔
      ∃ j ∈ l, a.FreeIn known j s.member.ident := by
    rw [← h.neededInRun_site hx hs, NeededInRun,
      rtakeWhile_run hpre fun i hi => hl i (List.mem_append_left _ hi)]
    rfl
  have hbehind : (∃ m ∈ s.member.rest.run, s.member.ident ∈ m.freeNames known) ↔
      ∃ j ∈ l', a.FreeIn known j s.member.ident := by
    rw [← hrun]
    simp only [List.mem_map, exists_exists_and_eq_and]
    refine exists_congr fun m => and_congr_right fun hm => (h.freeIn_item hx ?_).symm
    exact hs.restNested.subset
      ((Code.blocks_sublist_nested (Code.body_mem_children hm)).subset List.mem_cons_self)
  have hnames : s.member.ident ∉ s.member.rest.runNames := by
    rw [← Code.map_ident_run]
    rw [List.map_append, ← hrun, List.map_map] at hout
    exact fun hin => hout (List.mem_append_right _ hin)
  rw [Site.mem_suffix_self, Code.isFree_iff_run, and_iff_right hnames, hbefore, hbehind]
  simp only [List.mem_append, or_and_right, exists_or]
  rw [or_comm, ← or_assoc]

/-- A member of a run as a site of the code. -/
theorem exists_site_run (h : a.Unfolds code) (hn : (code.literals.map (·.ident)).Nodup)
    (hx : x ∈ code.blocks entry) (hrun : a.RunAt x.1 pre front last post)
    (hbehind : a.FreeBehind known last behind) {i : Item} (hi : i ∈ front ++ [last]) :
    ∃ s ∈ code.sites, s.member.item = i ∧
      (i.ident ∈ s.suffix known ↔
        (∃ j ∈ front ++ [last], j ≠ i ∧ a.FreeIn known j i.ident) ∨ i.ident ∈ behind) := by
  have hlast := (h.shows x hx).2.symm.trans hrun.items_eq
  obtain ⟨hitems, hfn, hpre, hpost⟩ := hrun
  obtain ⟨l, l', hsplit⟩ := List.append_of_mem hi
  rw [hsplit] at hitems hfn ⊢
  have hheads : x.2.heads = (pre ++ l) ++ i :: (l' ++ post) := by
    rw [← (h.shows x hx).2, hitems, List.append_assoc, List.append_assoc]
    rfl
  have hother : ∀ j ∈ l ++ l', j.rhs.isFn = true := by
    intro j hj
    rcases List.mem_append.mp hj with hj | hj
    · exact hfn j (List.mem_append_left _ hj)
    · exact hfn j (List.mem_append_right _ (List.mem_cons_of_mem _ hj))
  have hout : i.ident ∉ (l ++ l').map (·.ident) := by
    have hnodup := h.nodup_run hn hx hitems hfn
    rw [List.map_append, List.map_cons, List.nodup_middle, ← List.map_append] at hnodup
    exact (List.nodup_cons.mp hnodup).1
  obtain ⟨s, hs, rfl, hat⟩ :=
    Code.exists_site (hfn i (List.mem_append_right _ List.mem_cons_self)) hheads []
  refine ⟨s, (Code.mem_sites_iff entry).mpr ⟨x, hx, hs⟩, rfl, ?_⟩
  rw [exists_other_iff fun hin => hout (List.mem_map_of_mem hin),
    h.mem_behind_iff hx hat (fun j hj => hother j (List.mem_append_right _ hj)) hpost hlast hbehind]
  exact h.mem_suffix_iff hx hat hother hpre hpost hout

/-- A closure record is made of a member of a run exactly if another member or what follows the run
needs it. -/
theorem exists_runForm (h : a.Unfolds code) {c : Classification} {calls : List (RecordId × Name)}
    (hr : Records c.known [] code.sites calls .empty c) (hn : (code.literals.map (·.ident)).Nodup)
    {blk : BlockId} (hreach : a.Reaches blk) (hrun : a.RunAt blk pre front last post) :
    ∃ behind, a.RunForm c (front ++ [last]) last behind := by
  obtain ⟨d, hd⟩ := h.shows.reaches_iff.mp hreach
  have hlast := (h.shows _ hd).2.symm.trans hrun.items_eq
  obtain ⟨s, -, rfl, hat⟩ :=
    Code.exists_site (hrun.isFn _ (List.mem_append_right _ List.mem_cons_self)) hlast []
  obtain ⟨r, next, hrec, hnext, hfrom⟩ := h.freeNamesFrom_site hd hat
  have hbehind : a.FreeBehind c.known s.member.item (s.member.rest.freeNames c.known) :=
    ⟨r, next, hrec, hnext, hfrom c.known⟩
  refine ⟨_, hbehind, fun i hi => ?_⟩
  obtain ⟨s', hs', rfl, hsuffix⟩ := h.exists_site_run hn hd hrun hbehind hi
  exact ⟨_, hr.decision s' hs', rfl, Site.makeClosure_iff.trans hsuffix⟩

end Unfolds

end Arena

end ClosureConversion
