import ClosureConversion.Proofs.ClosedForm
import ClosureConversion.Proofs.Exploration.Bookkeeping

/-!
# What the optimisation saves

Trying functions as known explores bodies several times, and each time under other known functions. The
results with and without it can still be compared literal by literal, since both are in closed form
over their known functions. Without the optimisation there are none (`Code.known_classify_false`). With
it, a name that is no longer free is one of the known functions (`Code.IsFree.of_not_mem`), so every
difference between the two results is a known function.
-/

namespace ClosureConversion

namespace Code

/-! ## One literal under more known functions -/

variable {known known' : NameSet} {n : Name}

/-- Only a known function ceases to be free when more functions become known. -/
theorem IsFree.of_not_mem {c : Code} (hn : n ∉ known') (h : c.IsFree known n) :
    c.IsFree known' n :=
  h.of_known_aux (fun _ hm => NameSet.mem_toList.mpr hm)
    (Block.CallsInScope.of_subset fun _ hm => hm) (fun _ hm => .inl hm) hn

end Code

namespace Member

variable {known known' : NameSet} {m : Member} {n : Name}

/-- More known functions, fewer free names. -/
theorem mem_freeNames_anti (hk : ∀ f ∈ known, f ∈ known') (h : n ∈ m.freeNames known') :
    n ∈ m.freeNames known := by
  rw [mem_freeNames] at h ⊢
  exact ⟨h.1.anti hk, h.2⟩

/-- More known functions, fewer captures. -/
theorem mem_captures_anti (hk : ∀ f ∈ known, f ∈ known') (h : n ∈ m.captures known') :
    n ∈ m.captures known := by
  obtain ⟨hm, hfree, hne⟩ := mem_captures.mp h
  exact mem_captures.mpr ⟨fun hin => hm (hk _ hin), mem_freeNames_anti hk hfree, hne⟩

/-- What a literal captures no more is known by now. A known literal captures nothing because it has
no free names. -/
theorem mem_of_not_mem_captures (hs : m.Supported known') (h : n ∈ m.captures known)
    (hn : n ∉ m.captures known') : n ∈ known' := by
  by_contra hout
  obtain ⟨-, hfree, hne⟩ := mem_captures.mp h
  obtain ⟨hbody, hparams⟩ := mem_freeNames.mp hfree
  have hfree' : n ∈ m.freeNames known' := mem_freeNames.mpr ⟨hbody.of_not_mem hout, hparams⟩
  refine hn (mem_captures.mpr ⟨?_, hfree', hne⟩)
  exact fun hin => hs hin n hfree'

end Member

namespace Site

variable {known known' : NameSet} {s : Site}

/-- More known functions, fewer literals that stay. -/
theorem mem_suffix_self_anti (hk : ∀ f ∈ known, f ∈ known')
    (h : s.member.ident ∈ s.suffix known') : s.member.ident ∈ s.suffix known := by
  rw [mem_suffix_self] at h ⊢
  rcases h with h | ⟨e, he, h⟩
  · exact .inl (h.anti hk)
  · exact .inr ⟨e, he, Member.mem_freeNames_anti hk h⟩

end Site

/-! ## Two results -/

/-- The captures of a function, none if it is known. -/
def Classification.carried (c : Classification) (f : Name) : List Name :=
  if f ∈ c.known then [] else (c.captures? f).getD []

/-- For the function `f`, the result `on` asks for no more than the result `off`, in which `f` is a
closure; what it carries less is known. -/
structure Relieves (on off : Classification) (f : Name) : Prop where
  /-- A closure record that is made is made in `off`, too. -/
  decided : ∃ d d', on.decision? f = some d ∧ off.decision? f = some d' ∧ d'.standing = .closure ∧
    ∀ captures, d.action = .makeClosure captures → ∃ captures', d'.action = .makeClosure captures'
  captured : ∃ captures, off.captures? f = some captures ∧ (∀ n ∈ on.carried f, n ∈ captures) ∧
    ∀ n ∈ captures, n ∉ on.carried f → ∃ d, on.decision? n = some d ∧ d.standing = .known

section Records

variable {pending : List Member} {sites : List Site}
  {calls : List (RecordId × Name)} {on off : Classification}

/-- What a literal carries is what it captures under the known functions. -/
theorem Records.carried_eq (h : Records on.known pending sites calls .empty on) {s : Site}
    (hs : s ∈ sites) : on.carried s.member.ident = s.member.captures on.known := by
  rw [Classification.carried, Classification.captures?, h.entry s hs, s.getD_entry?]
  split
  next hk => rw [Member.captures, if_pos hk]
  next => rfl

/-- Two results over the same literals, one of them without known functions. -/
theorem Records.relieves (hon : Records on.known pending sites calls .empty on)
    (hoff : Records off.known pending sites calls .empty off)
    (hn : (sites.map (·.member.ident)).Nodup) (hempty : off.known = ∅)
    (hsup : ∀ s ∈ sites, s.member.Supported on.known)
    (hlit : ∀ f ∈ on.known, ∃ s ∈ sites, s.member.ident = f) {s : Site} (hs : s ∈ sites) :
    Relieves on off s.member.ident := by
  rw [hempty] at hoff
  have hk : ∀ f ∈ (∅ : NameSet), f ∈ on.known := fun f hf => absurd hf (NameSet.not_mem_empty f)
  have hclosure : s.member.ident ∉ (∅ : NameSet) := NameSet.not_mem_empty _
  refine ⟨⟨_, _, hon.decision?_eq hn hs, hoff.decision?_eq hn hs,
    Site.standing_of_not_mem hclosure, ?_⟩, ?_⟩
  · intro captures haction
    have hneeded := Site.makeClosure_iff.mp ⟨captures, haction⟩
    exact Site.makeClosure_iff.mpr (Site.mem_suffix_self_anti hk hneeded)
  · have hentry : off.captures? s.member.ident = some (s.member.captures ∅) := by
      rw [Classification.captures?, hoff.entry s hs, Site.entry?, if_neg fun h => hclosure h.1]
    rw [hon.carried_eq hs]
    refine ⟨_, hentry, fun n h => Member.mem_captures_anti hk h, fun n h hout => ?_⟩
    have hknown : n ∈ on.known := Member.mem_of_not_mem_captures (hsup s hs) h hout
    obtain ⟨s', hs', rfl⟩ := hlit n hknown
    exact ⟨_, hon.decision?_eq hn hs', Site.standing_of_mem hknown⟩

end Records

/-- **The optimisation only saves.** Without it every function is a closure and every call goes through
a closure record. With it no other calls do, and for every function no record is made and nothing is
captured that was not before. What is captured less are known functions. -/
theorem optimization_relieves (t : Block) (hu : t.UniqueLiterals)
    (hc : t.CallsInScope t.literalNames []) :
    ∃ on off, (Arena.ofBlock t).classify true = .ok on ∧ (Arena.ofBlock t).classify false = .ok off ∧
      (∀ d ∈ off.decisions.values, d.standing = .closure) ∧
      (∀ {blk id ident callee args indirect}, (Arena.ofBlock t).Reaches blk →
        ⟨id, ident, .op (.app callee args indirect)⟩ ∈ (Arena.ofBlock t).items blk →
        off.closureCalls.contains id = true) ∧
      (∀ id, on.closureCalls.contains id = true → off.closureCalls.contains id = true) ∧
      ∀ {id f params body}, (Arena.ofBlock t).HasLiteral id f params body → Relieves on off f := by
  have ha := Arena.ofBlock_unfolds t
  have hplaced := Block.placed_number hu hc 1 2
  have hp := t.classify_progress hu hc true
  have hon := t.classify_records hu hc true
  have hoff := t.classify_records hu hc false
  have hempty := (t.number 1 2).known_classify_false
  refine ⟨_, _, ha.classify_eq true, ha.classify_eq false, ?_, ?_, ?_, ?_⟩
  · intro d hd
    obtain ⟨id, hid⟩ := Table.mem_values_iff.mp hd
    obtain ⟨s, -, -, rfl⟩ := hoff.exists_site hid
    apply Site.standing_of_not_mem
    rw [hempty]
    exact NameSet.not_mem_empty _
  · intro blk id ident callee args indirect hreach hi
    have hform := ha.closedForm (fun f hf => ?_) hoff
    · rw [hform.calls id, hempty]
      exact ⟨blk, ident, callee, args, indirect, hreach, hi, NameSet.not_mem_empty callee⟩
    · rw [hempty] at hf
      exact absurd hf (NameSet.not_mem_empty f)
  · intro id hid
    obtain ⟨callee, hcall, -⟩ := hon.exists_call hid
    rw [hempty] at hoff
    exact (hoff.calls id).mpr (.inr ⟨callee, hcall, NameSet.not_mem_empty callee⟩)
  · intro id f params body hl
    obtain ⟨m, hm, hitem⟩ := ha.shows.hasLiteral_iff.mp hl
    obtain ⟨s, hs, rfl⟩ := List.mem_map.mp hm
    obtain rfl : s.member.ident = f := congrArg Item.ident hitem
    have hnodup := hplaced.separate.1
    rw [Code.literals, List.map_map] at hnodup
    apply hon.relieves hoff hnodup hempty ?_ ?_ hs
    · exact fun s hs => hp.sound s.member (List.mem_map_of_mem hs)
    · intro f hf
      obtain ⟨m, hm, rfl⟩ := (hp.adds f hf).resolve_left (NameSet.not_mem_empty f)
      obtain ⟨s, hs, rfl⟩ := List.mem_map.mp hm
      exact ⟨s, hs, rfl⟩

/-- Without the option a call of the sample goes through a closure; with it, `k` carries no more
than before. -/
theorem optimization_relieves_sample :
    Block.sample.UniqueLiterals ∧
      Block.sample.CallsInScope Block.sample.literalNames [] ∧
      ∃ on off, (Arena.ofBlock Block.sample).classify true = .ok on ∧
        (Arena.ofBlock Block.sample).classify false = .ok off ∧
        off.closureCalls.contains 12 = true ∧ Relieves on off "k" := by
  obtain ⟨on, off, hon, hoff, -, hcalls, -, hrel⟩ :=
    optimization_relieves Block.sample (by decide) (by decide)
  have hbody : (Arena.ofBlock Block.sample).Reaches 3 :=
    .step (i := ⟨26, "h", .fn ["u"] 3⟩) .entry (by decide +kernel) (by decide)
  have hbranch : (Arena.ofBlock Block.sample).Reaches 4 :=
    .step (i := ⟨25, "r", .branch "u" 4 6⟩) hbody (by decide +kernel) (by decide)
  have hliteral : (Arena.ofBlock Block.sample).HasLiteral 20 "k" [] 5 :=
    ⟨4, hbranch, by decide +kernel⟩
  have hcall : ⟨12, "b", .op (.app "f" ["a"] false)⟩ ∈
      (Arena.ofBlock Block.sample).items Arena.entry := by decide +kernel
  exact ⟨by decide, by decide, on, off, hon, hoff, hcalls .entry hcall, hrel hliteral⟩

end ClosureConversion
