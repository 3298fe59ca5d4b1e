import ClosureConversion.Proofs.Exploration.Renumbering
import ClosureConversion.Proofs.Optimization
import ClosureConversion.Proofs.Reordering.Blocks
import ClosureConversion.Proofs.Reordering.Groups

/-!
# Classification does not see the order of a run

The members of a run are tried one after the other, on a state that grows, and each is decided on by
what stands before and behind it. The results for two orders are still the same
(`classify_reorder`). Both are in closed form over their known functions, and the known functions are
the greatest set that supports the literals, which are the same in both orders. So the two results can
be read under one set of known functions, and there they differ only in what a block says about its
literals (`Block.Reordered.matched`, `Block.Reordered.needed_iff`).
-/

namespace ClosureConversion

open Block (Reordered)

/-! ## Literals of code as literals of a block -/

/-- A literal without its numbers and what follows it. -/
def Member.literal (m : Member) : Block.Literal := ⟨m.ident, m.params, m.body.erase⟩

namespace Code

variable {known : NameSet} {n : Name}

/-- The literals of code are those of the block that it stands for. -/
theorem literals_erase_perm (c : Code) : c.erase.literals.Perm (c.literals.map (·.literal)) := by
  induction c with
  | done => exact .refl _
  | op id ident o rest ih => exact ih
  | fn id ident params blk body rest ihb ih =>
      refine .trans ?_ ((literals_fn_perm ..).map _).symm
      rw [List.map_cons, List.map_append]
      exact (ihb.append ih).cons _
  | branch id ident cond yesBlk noBlk yes no rest ihy ihn ih =>
      refine .trans ?_ ((literals_branch_perm ..).map _).symm
      rw [List.map_append, List.map_append, ← List.append_assoc]
      exact (ihy.append ihn).append ih

/-- A literal is needed at its place if its name is needed behind it. -/
theorem needed_erase (c : Code) (known : NameSet) (f : Name) (earlier : List Member) (before : Prop)
    (hb : before ↔ ∃ e ∈ earlier, f ∈ e.freeNames known) :
    c.erase.Needed known f before ↔
      ∃ s ∈ c.ownSites earlier ++ c.innerSites, s.member.ident = f ∧ f ∈ s.suffix known := by
  induction c generalizing earlier before with
  | done => simp [erase, Block.Needed, ownSites, innerSites]
  | op id ident o rest ih => exact ih [] False (by simp)
  | fn id ident params blk body rest ihb ih =>
      have hown : (f = ident ∧ (rest.erase.IsFree known f ∨ before)) ↔
          ident = f ∧ f ∈ Site.suffix known ⟨earlier, ⟨id, ident, params, blk, body, rest⟩⟩ := by
        rw [hb, eq_comm]
        refine and_congr_right ?_
        rintro rfl
        exact (Site.mem_suffix_self (s := ⟨earlier, ⟨id, ident, params, blk, body, rest⟩⟩)).symm
      have hnext : before ∨ (f ∉ params ∧ body.erase.IsFree known f) ↔
          ∃ e ∈ earlier ++ [⟨id, ident, params, blk, body, rest⟩], f ∈ e.freeNames known := by
        rw [hb, and_comm]
        simp [or_and_right, exists_or, Member.mem_freeNames, IsFree]
      rw [erase, Block.Needed, hown, ihb [] False (by simp), ih _ _ hnext]
      simp only [ownSites, innerSites, List.mem_append, List.mem_cons, or_and_right, exists_or,
        exists_eq_left]
      exact or_or_or_comm
  | branch id ident cond yesBlk noBlk yes no rest ihy ihn ih =>
      rw [erase, Block.Needed, ihy [] False (by simp), ihn [] False (by simp), ih [] False (by simp)]
      simp only [ownSites, innerSites, List.mem_append, or_and_right, exists_or]
      rw [← or_assoc, or_left_comm]

end Code

namespace Block

variable {t : Block}

/-- The literals of a block are those of its numbered code. -/
theorem mem_literals_iff {l : Literal} :
    l ∈ t.literals ↔ ∃ s ∈ (t.number 1 2).sites, s.member.literal = l := by
  have hperm := (t.number 1 2).literals_erase_perm
  rw [erase_number] at hperm
  rw [hperm.mem_iff, Code.literals, List.map_map, List.mem_map]
  rfl

/-- The names of literals are those of the numbered code. -/
theorem literalNames_perm_sites (t : Block) :
    t.literalNames.Perm ((t.number 1 2).sites.map (·.member.ident)) := by
  have hperm := (t.number 1 2).literalNames_perm
  rwa [erase_number, Code.literals, List.map_map] at hperm

/-- Unique literals have different names in the numbered code. -/
theorem nodup_sites (hu : t.UniqueLiterals) :
    ((t.number 1 2).sites.map (·.member.ident)).Nodup :=
  t.literalNames_perm_sites.nodup_iff.mp hu.nodup

/-- Where names are distinct, a literal is needed if any of its name is. -/
theorem mem_suffix_iff_needed (hu : t.UniqueLiterals) {s : Site} (hs : s ∈ (t.number 1 2).sites)
    (known : NameSet) :
    s.member.ident ∈ s.suffix known ↔ t.Needed known s.member.ident False := by
  have herase := (t.number 1 2).needed_erase known s.member.ident [] False (by simp)
  rw [erase_number] at herase
  rw [herase]
  constructor
  · exact fun h => ⟨s, hs, rfl, h⟩
  · rintro ⟨s', hs', hident, h⟩
    rwa [List.inj_on_of_nodup_map (nodup_sites hu) hs' hs hident] at h

end Block

/-! ## One literal in two orders -/

namespace Member

variable {m m' : Member} {known : NameSet} {n : Name}

/-- Literals that are alike have the same free names. -/
theorem mem_freeNames_congr (h : m.literal.Alike m'.literal) :
    n ∈ m.freeNames known ↔ n ∈ m'.freeNames known := by
  have hparams : m.params = m'.params := h.params
  have hbody : m.body.erase.IsFree known n ↔ m'.body.erase.IsFree known n := h.body.isFree known n
  rw [mem_freeNames, mem_freeNames, Code.IsFree, Code.IsFree, hbody, hparams]

/-- Literals that are alike capture the same names, maybe in another order. -/
theorem captures_perm (h : m.literal.Alike m'.literal) :
    (m.captures known).Perm (m'.captures known) := by
  have hnodup : ∀ m : Member, (m.captures known).Nodup := by
    intro m
    unfold captures
    split
    · exact List.nodup_nil
    · exact NameSet.nodup _
  have hident : m.ident = m'.ident := h.name
  apply (List.perm_ext_iff_of_nodup (hnodup m) (hnodup m')).mpr
  intro n
  rw [mem_captures, mem_captures, mem_freeNames_congr h, hident]

/-- What a literal captures, and in which order, is seen from the literal alone. -/
theorem captures_eq (h : m.literal = m'.literal) : m.captures known = m'.captures known := by
  obtain ⟨hident, hparams, hbody⟩ := Block.Literal.mk.inj h
  unfold captures freeNames Code.bodyFreeNames
  rw [(Code.same_of_erase_eq hbody).2.freeNames_eq, hident, hparams]

end Member

/-! ## Two results -/

/-- The same choice, with captures related by `R`. -/
inductive Action.Like (R : List Name → List Name → Prop) : Action → Action → Prop where
  | remove : Like R .remove .remove
  | makeClosure {captures captures' : List Name} : R captures captures' →
    Like R (.makeClosure captures) (.makeClosure captures')

/-- Two results say the same about the function `f`, with captures related by `R`. -/
structure Classification.AgreeOn (R : List Name → List Name → Prop) (c c' : Classification)
    (f : Name) : Prop where
  decided : ∃ d d', c.decision? f = some d ∧ c'.decision? f = some d' ∧ d.params = d'.params ∧
    d.standing = d'.standing ∧ d.action.Like R d'.action
  captured : Option.Rel R (c.captures? f) (c'.captures? f)

/-- Results with the same known functions agree on literals that are alike. -/
theorem Records.agreeOn {known : NameSet} {sites sites' : List Site}
    {calls calls' : List (RecordId × Name)} {c c' : Classification}
    (h : Records known [] sites calls .empty c) (h' : Records known [] sites' calls' .empty c')
    (hn : (sites.map (·.member.ident)).Nodup) (hn' : (sites'.map (·.member.ident)).Nodup)
    {s s' : Site} (hs : s ∈ sites) (hs' : s' ∈ sites') {R : List Name → List Name → Prop}
    (halike : s.member.literal.Alike s'.member.literal)
    (hneeded : s.member.ident ∈ s.suffix known ↔ s'.member.ident ∈ s'.suffix known)
    (hR : R (s.member.captures known) (s'.member.captures known)) :
    c.AgreeOn R c' s.member.ident := by
  have hident : s'.member.ident = s.member.ident := halike.name.symm
  have hd' := h'.decision?_eq hn' hs'
  have he' := h'.entry s' hs'
  rw [hident] at hd' he' hneeded
  refine ⟨⟨_, _, h.decision?_eq hn hs, hd', halike.params, ?_, ?_⟩, ?_⟩
  · simp only [Site.decision, hident]
  · simp only [Site.decision, Site.action, hident, ← hneeded]
    split
    · exact .makeClosure hR
    · exact .remove
  · rw [Classification.captures?, Classification.captures?, h.entry s hs, he']
    simp only [Site.entry?, hident, ← hneeded]
    split
    · exact .none
    · exact .some hR

namespace Block.Reordered

variable {moved : List Literal} {t t' : Block}

/-- Every literal has its like in the reordered block. -/
theorem exists_site (h : Reordered moved t t') {s : Site} (hs : s ∈ (t.number 1 2).sites) :
    ∃ s' ∈ (t'.number 1 2).sites, s.member.literal.Alike s'.member.literal := by
  obtain ⟨l', hl', halike⟩ := h.matched _ (mem_literals_iff.mpr ⟨s, hs, rfl⟩)
  obtain ⟨s', hs', rfl⟩ := mem_literals_iff.mp hl'
  exact ⟨s', hs', halike⟩

/-- Known functions are literals of the reordered block. -/
theorem known_subset (h : Reordered moved t t') (hu : t.UniqueLiterals)
    (hc : t.CallsInScope t.literalNames []) (optimize : Bool) :
    ∀ f ∈ ((t.number 1 2).classify optimize).val.known, f ∈ t'.literalNames := fun f hf =>
  h.alike.literalNames.mem_iff.mp (t.classify_known_subset hu hc optimize f hf)

/-- What is known in one order is known in the other: it is supported there, too. -/
theorem mem_known (h : Reordered moved t t') (hu : t.UniqueLiterals)
    (hc : t.CallsInScope t.literalNames []) (optimize : Bool) {n : Name}
    (hn : n ∈ ((t.number 1 2).classify optimize).val.known) :
    n ∈ ((t'.number 1 2).classify optimize).val.known := by
  cases optimize with
  | false =>
      rw [Code.known_classify_false] at hn
      exact absurd hn (NameSet.not_mem_empty n)
  | true =>
      have hp := t.classify_progress hu hc true
      have hp' := t'.classify_progress (h.uniqueLiterals hu) (h.callsInScope hc) true
      have hfns := h.known_subset hu hc true
      generalize ((t.number 1 2).classify true).val = c at hn hp hfns
      have hsup : ∀ m' ∈ (t'.number 1 2).literals, m'.Supported c.known := by
        intro m' hm' hk n hfree
        obtain ⟨s', hs', rfl⟩ := List.mem_map.mp hm'
        obtain ⟨s, hs, halike⟩ := h.symm.exists_site hs'
        have hident : s'.member.ident = s.member.ident := halike.name
        rw [hident] at hk
        rw [Member.mem_freeNames_congr halike] at hfree
        exact hp.sound _ (List.mem_map_of_mem hs) hk n hfree
      obtain ⟨m, hm, rfl⟩ := (hp.adds n hn).resolve_left (NameSet.not_mem_empty n)
      obtain ⟨s, hs, rfl⟩ := List.mem_map.mp hm
      obtain ⟨s', hs', halike⟩ := h.exists_site hs
      have hident : s.member.ident = s'.member.ident := halike.name
      rw [hident] at hn ⊢
      exact hp'.maximal rfl c.known hfns hsup (fun _ hin => absurd hin List.not_mem_nil) _
        (List.mem_map_of_mem hs') hn

/-- The records in the other order are right under the known functions of this one. -/
theorem records (h : Reordered moved t t') (hu : t.UniqueLiterals)
    (hc : t.CallsInScope t.literalNames []) (optimize : Bool) :
    Records ((t.number 1 2).classify optimize).val.known [] (t'.number 1 2).sites
      (t'.number 1 2).calls .empty ((t'.number 1 2).classify optimize).val := by
  have hu' := h.uniqueLiterals hu
  have hc' := h.callsInScope hc
  apply (t'.classify_progress hu' hc' optimize).records _ (h.known_subset hu hc optimize)
  · exact fun _ hin => absurd hin List.not_mem_nil
  · exact fun _ _ => ⟨h.mem_known hu hc optimize, h.symm.mem_known hu' hc' optimize⟩

/-- The two results agree on a literal, however the captures in the two orders are related. -/
theorem agreeOn (h : Reordered moved t t') (hu : t.UniqueLiterals)
    (hc : t.CallsInScope t.literalNames []) (optimize : Bool) {s s' : Site}
    (hs : s ∈ (t.number 1 2).sites) (hs' : s' ∈ (t'.number 1 2).sites)
    (halike : s.member.literal.Alike s'.member.literal) {R : List Name → List Name → Prop}
    (hR : ∀ known, R (s.member.captures known) (s'.member.captures known)) :
    ((t.number 1 2).classify optimize).val.AgreeOn R ((t'.number 1 2).classify optimize).val
      s.member.ident := by
  have hu' := h.uniqueLiterals hu
  have hident : s.member.ident = s'.member.ident := halike.name
  apply (t.classify_records hu hc optimize).agreeOn (h.records hu hc optimize) (nodup_sites hu)
    (nodup_sites hu') hs hs' halike ?_ (hR _)
  rw [mem_suffix_iff_needed hu hs, mem_suffix_iff_needed hu' hs', h.needed_iff False hu.nodup, hident]

end Block.Reordered

/-- **The order of a run does not matter.** If literals that stand one after the other are put into
another order, the same functions are known, and each function has the same standing, the same fate and
the same captures, up to their order. For the literals that were moved their order is the same, too.
A closure record is made of a member of a run exactly if another member or what follows the run needs
it. -/
theorem classify_reorder (t t' : Block) (moved : List Block.Literal) (h : Reordered moved t t')
    (hu : t.UniqueLiterals) (hc : t.CallsInScope t.literalNames []) (optimize : Bool) :
    ∃ c c', (Arena.ofBlock t).classify optimize = .ok c ∧
      (Arena.ofBlock t').classify optimize = .ok c' ∧
      (∀ f, f ∈ c.known ↔ f ∈ c'.known) ∧
      (∀ f ∈ t.literalNames, c.AgreeOn List.Perm c' f) ∧
      (∀ l ∈ moved, c.AgreeOn Eq c' l.name) ∧
      ∀ {blk pre front last post}, (Arena.ofBlock t).Reaches blk →
        (Arena.ofBlock t).RunAt blk pre front last post →
        ∃ behind, (Arena.ofBlock t).RunForm c (front ++ [last]) last behind := by
  have ha := Arena.ofBlock_unfolds t
  have hu' := h.uniqueLiterals hu
  have hc' := h.callsInScope hc
  have ha' := Arena.ofBlock_unfolds t'
  refine ⟨_, _, ha.classify_eq optimize, ha'.classify_eq optimize, ?_, ?_, ?_, ?_⟩
  · exact fun f => ⟨h.mem_known hu hc optimize, h.symm.mem_known hu' hc' optimize⟩
  · intro f hf
    obtain ⟨s, hs, rfl⟩ := List.mem_map.mp (t.literalNames_perm_sites.mem_iff.mp hf)
    obtain ⟨s', hs', halike⟩ := h.exists_site hs
    exact h.agreeOn hu hc optimize hs hs' halike fun _ => Member.captures_perm halike
  · intro l hl
    obtain ⟨s, hs, rfl⟩ := Block.mem_literals_iff.mp (h.mem_literals hl)
    obtain ⟨s', hs', heq⟩ := Block.mem_literals_iff.mp (h.symm.mem_literals hl)
    have halike : s.member.literal.Alike s'.member.literal := heq ▸ ⟨rfl, rfl, .refl _⟩
    exact h.agreeOn hu hc optimize hs hs' halike fun _ => Member.captures_eq heq.symm
  · intro blk pre front last post hreach hrun
    exact ha.exists_runForm (t.classify_records hu hc optimize)
      (Block.placed_number hu hc 1 2).separate.1 hreach hrun

/-- The two functions of the sample that call one another. -/
def Block.samplePair : List Block.Literal :=
  [⟨"f", ["x"], .op "y" (.app "g" ["x"] false) .done⟩,
    ⟨"g", ["z"], .op "w" (.app "f" ["z"] false) <| .op "v" (.ref "a") .done⟩]

/-- The sample with these two in the other order. -/
def Block.sampleReordered : Block :=
  .op "a" (.int 1) <| .ofRun samplePair.reverse <|
  .op "b" (.app "f" ["a"] false) <|
  .fn "h" ["u"]
    (.branch "r" "u"
      (.fn "k" [] (.op "s" (.app "h" ["u"] false) .done) <| .op "t" (.ref "k") .done)
      (.op "q" (.app "h" ["u"] false) .done) .done) <|
  .op "e" (.tuple ["h", "b"]) .done

/-- The members of a run of two change places. -/
theorem classify_reorder_sample :
    Reordered Block.samplePair Block.sample Block.sampleReordered ∧
      Block.sample.UniqueLiterals ∧ Block.sample.CallsInScope Block.sample.literalNames [] ∧
      ∃ c c', (Arena.ofBlock Block.sample).classify true = .ok c ∧
        (Arena.ofBlock Block.sampleReordered).classify true = .ok c' ∧
        c.AgreeOn List.Perm c' "k" ∧ c.AgreeOn Eq c' "g" ∧
        ∃ behind, (Arena.ofBlock Block.sample).RunForm c
          [⟨6, "f", .fn ["x"] 1⟩, ⟨11, "g", .fn ["z"] 2⟩] ⟨11, "g", .fn ["z"] 2⟩ behind := by
  have h : Reordered Block.samplePair Block.sample Block.sampleReordered :=
    .op "a" (.int 1) (.run _ (.refl Block.samplePair) (List.reverse_perm _).symm)
  obtain ⟨c, c', hok, hok', -, hagree, hmoved, hform⟩ :=
    classify_reorder Block.sample Block.sampleReordered Block.samplePair h (by decide) (by decide) true
  have hrun : (Arena.ofBlock Block.sample).RunAt Arena.entry [⟨2, "a", .op (.int 1)⟩]
      [⟨6, "f", .fn ["x"] 1⟩] ⟨11, "g", .fn ["z"] 2⟩
      [⟨12, "b", .op (.app "f" ["a"] false)⟩, ⟨26, "h", .fn ["u"] 3⟩,
        ⟨27, "e", .op (.tuple ["h", "b"])⟩] :=
    ⟨by decide +kernel, by decide, by decide, by decide⟩
  exact ⟨h, by decide, by decide, c, c', hok, hok', hagree "k" (by decide),
    hmoved _ (List.mem_cons_of_mem _ List.mem_cons_self), hform .entry hrun⟩

end ClosureConversion
