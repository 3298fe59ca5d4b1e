import ClosureConversion.Proofs.Exploration.Blocks

/-!
# What an exploration touches, and what it decides

Three statements about the tables that the exploration fills, without any condition on scopes.

* `Touches`: exploring code changes nothing about other literals, records no other calls, and every
  decision it makes is about one of its literals. This holds of all code (`Code.visits_plan`).
* `Classification.Decided`: a literal has its decision, and a closure record that the decision asks for
  has the captures that are on record. If no two literals share their name or their record, exploring
  code decides all of them (`Code.decides_plan`): a member of a run that is not left over as known is
  closed over, so each body is explored in the state that is kept.
* `KeepsKnown`: without the optimisation no step makes a function known (`Code.planKeeps`).
-/

namespace ClosureConversion

/-- A decision is about a literal. -/
def Decision.About (d : Decision) (m : Member) : Prop :=
  d.name = m.ident ∧ d.params = m.params ∧ d.body = m.blk

/-- From `c` to `c'`, only the literals `ms` and the `calls` are touched. -/
structure Touches (ms : List Member) (calls : List (RecordId × Name)) (c c' : Classification) :
    Prop where
  keeps : ∀ n ∈ c.known, n ∈ c'.known
  adds : ∀ n ∈ c'.known, n ∈ c.known ∨ ∃ m ∈ ms, m.ident = n
  calls : ∀ id, c'.closureCalls.contains id = true →
    c.closureCalls.contains id = true ∨ ∃ callee, (id, callee) ∈ calls
  closures : ∀ n, (∀ m ∈ ms, m.ident ≠ n) → c'.closures.get? n = c.closures.get? n
  decisions : ∀ id, c'.decisions.get? id = c.decisions.get? id ∨
    ∃ m ∈ ms, m.id = id ∧ ∃ d, c'.decisions.get? id = some d ∧ d.About m

namespace Touches

variable {ms ms' : List Member} {calls calls' : List (RecordId × Name)} {c c₁ c' : Classification}

/-- Nothing done touches nothing. -/
theorem refl (ms : List Member) (calls : List (RecordId × Name)) (c : Classification) :
    Touches ms calls c c where
  keeps := fun _ h => h
  adds := fun _ h => .inl h
  calls := fun _ h => .inl h
  closures := fun _ _ => rfl
  decisions := fun _ => .inl rfl

/-- What two steps touch. -/
theorem trans (h : Touches ms calls c c₁) (h' : Touches ms calls c₁ c') : Touches ms calls c c' where
  keeps := fun n hn => h'.keeps n (h.keeps n hn)
  adds := fun n hn => (h'.adds n hn).elim (h.adds n) .inr
  calls := fun id hid => (h'.calls id hid).elim (h.calls id) .inr
  closures := fun n hn => (h'.closures n hn).trans (h.closures n hn)
  decisions := by
    intro id
    rcases h'.decisions id with heq | hnew
    · rw [heq]
      exact h.decisions id
    · exact .inr hnew

/-- More may be touched. -/
theorem mono (h : Touches ms calls c c') (hm : ∀ m ∈ ms, m ∈ ms')
    (hc : ∀ x ∈ calls, x ∈ calls') : Touches ms' calls' c c' where
  keeps := h.keeps
  adds := fun n hn => (h.adds n hn).imp_right fun ⟨m, hmem, he⟩ => ⟨m, hm m hmem, he⟩
  calls := fun id hid => (h.calls id hid).imp_right fun ⟨callee, hmem⟩ => ⟨callee, hc _ hmem⟩
  closures := fun n hn => h.closures n fun m hmem => hn m (hm m hmem)
  decisions := fun id => (h.decisions id).imp_right fun ⟨m, hmem, hd⟩ => ⟨m, hm m hmem, hd⟩

/-- A name that is none of the touched ones has the same standing before and after. -/
theorem mem_known_iff (h : Touches ms calls c c') {n : Name} (hn : ∀ m ∈ ms, m.ident ≠ n) :
    n ∈ c'.known ↔ n ∈ c.known := by
  constructor
  · intro hk
    rcases h.adds n hk with hk | ⟨m, hm, rfl⟩
    · exact hk
    · exact absurd rfl (hn m hm)
  · exact h.keeps n

end Touches

/-- A step touches only some literals and calls. -/
def Visits (ms : List Member) (calls : List (RecordId × Name)) (e : Exploration) : Prop :=
  ∀ c, Touches ms calls c (e c).val

/-- More may be touched by a step. -/
theorem Visits.mono {ms ms' : List Member} {calls calls' : List (RecordId × Name)} {e : Exploration}
    (h : Visits ms calls e) (hm : ∀ m ∈ ms, m ∈ ms') (hc : ∀ x ∈ calls, x ∈ calls') :
    Visits ms' calls' e := fun c => (h c).mono hm hc

/-- What two steps touch, one after the other. -/
theorem Visits.bind {ms ms' : List Member} {calls calls' : List (RecordId × Name)}
    {e e' : Exploration} (h : Visits ms calls e) (h' : Visits ms' calls' e') :
    Visits (ms ++ ms') (calls ++ calls') (fun c => e c >>= e') := by
  intro c
  refine ((h c).mono ?_ ?_).trans ((h' (e c).val).mono ?_ ?_)
  · exact fun m hm => List.mem_append_left _ hm
  · exact fun x hx => List.mem_append_left _ hx
  · exact fun m hm => List.mem_append_right _ hm
  · exact fun x hx => List.mem_append_right _ hx

namespace Classification

variable {c c' : Classification} {m : Member} {ms : List Member} {calls : List (RecordId × Name)}

/-- A literal has its decision, and a closure record that is made for it has the captures that are on
record. -/
def Decided (c : Classification) (m : Member) : Prop :=
  ∃ d, c.decisions.get? m.id = some d ∧ d.About m ∧
    ∀ captures, d.action = .makeClosure captures → c.closures.get? m.ident = some captures

/-- A decided literal stays decided as long as only others are touched. -/
theorem Decided.of_touches (h : c.Decided m)
    (ht : Touches ms calls c c') (ha : Apart ms [m]) : c'.Decided m := by
  obtain ⟨d, hd, habout, hcap⟩ := h
  have hother : ∀ m' ∈ ms, m'.ident ≠ m.ident ∧ m'.id ≠ m.id := fun m' hm' =>
    ha m' hm' m List.mem_cons_self
  have hsame : c'.decisions.get? m.id = c.decisions.get? m.id := by
    rcases ht.decisions m.id with heq | ⟨m', hm', hid, -⟩
    · exact heq
    · exact absurd hid (hother m' hm').2
  refine ⟨d, hsame.trans hd, habout, fun captures hact => ?_⟩
  rw [ht.closures _ fun m' hm' => (hother m' hm').1]
  exact hcap captures hact

/-! ## Single steps -/

/-- A flat instruction touches its own call at most. -/
theorem touches_visit (id : RecordId) (ident : Name) (o : Operation) (c : Classification) :
    Touches [] (o.callee?.toList.map (id, ·)) c (c.visit id ident o).val := by
  cases o with
  | app callee args indirect =>
      simp only [visit]
      split
      next => exact .refl ..
      next =>
        refine ⟨fun _ h => h, fun _ h => .inl h, ?_, fun _ _ => rfl, fun _ => .inl rfl⟩
        intro id' hid
        simp only [Traced.val_bind, Traced.val_pure, Table.contains_insert] at hid
        rcases hid with rfl | hid
        · exact .inr ⟨callee, List.mem_cons_self⟩
        · exact .inl hid
  | _ => exact .refl ..

/-- Assuming candidates touches their names. -/
theorem touches_assume (run : List Candidate) (c : Classification) :
    Touches (run.map (·.1)) [] c (c.assume run) := by
  refine ⟨?_, ?_, fun _ h => .inl h, fun _ _ => rfl, fun _ => .inl rfl⟩
  · exact fun n hn => mem_known_assume.mpr (.inl hn)
  · intro n hn
    refine (mem_known_assume.mp hn).imp_right ?_
    rintro ⟨x, hx, rfl⟩
    exact ⟨x.1, List.mem_map_of_mem hx, rfl⟩

/-- Making a closure touches its literal. -/
theorem touches_capture (m : Member) (c : Classification) : Touches [m] [] c (c.capture m) := by
  refine ⟨fun _ h => h, fun _ h => .inl h, fun _ h => .inl h, ?_, fun _ => .inl rfl⟩
  exact fun n hn => Table.get?_insert_of_ne _ _ (hn m List.mem_cons_self).symm

/-- Deciding a literal touches it. -/
theorem touches_decide (earlier : List Member) (m : Member) (c : Classification) :
    Touches [m] [] c (decide earlier m c).val := by
  refine ⟨fun _ h => h, fun _ h => .inl h, fun _ h => .inl h, ?_, ?_⟩
  · intro n hn
    have hne : n ≠ m.ident := (hn m List.mem_cons_self).symm
    by_cases hin : m.ident ∈ suffixNames c.known earlier m
    · simp only [decide_val_eq, if_pos hin, Table.get?_insert_of_ne _ _ hne]
    · simp only [decide_val_eq, if_neg hin]
  · intro id
    by_cases hid : id = m.id
    · subst hid
      exact .inr ⟨m, List.mem_cons_self, rfl, _, Table.get?_insert_self .., rfl, rfl, rfl⟩
    · exact .inl (Table.get?_insert_of_ne _ _ hid)

/-- Deciding a literal decides it, whatever was on record before. -/
theorem decided_decide (earlier : List Member) (m : Member) (c : Classification) :
    (decide earlier m c).val.Decided m := by
  unfold Decided
  by_cases hin : m.ident ∈ suffixNames c.known earlier m
  · simp only [decide_val_eq, if_pos hin, Table.get?_insert_self, Option.some.injEq,
      exists_eq_left', Action.makeClosure.injEq, imp_self, implies_true, and_true]
    exact ⟨rfl, rfl, rfl⟩
  · simp only [decide_val_eq, if_neg hin, Table.get?_insert_self, Option.some.injEq,
      exists_eq_left', reduceCtorEq, false_imp_iff, implies_true, and_true]
    exact ⟨rfl, rfl, rfl⟩

/-- Deciding the literals of a block touches them. -/
theorem touches_decideAll (earlier : List Member) (code : Code) (c : Classification) :
    Touches code.members [] c (decideAll earlier code c).val := by
  induction code generalizing earlier c with
  | done => exact .refl ..
  | op id ident o rest ih => exact ih [] c
  | branch id ident cond yesBlk noBlk yes no rest _ _ ih => exact ih [] c
  | fn id ident params blk body rest _ ih =>
      rw [Code.members_fn]
      simp only [decideAll, Traced.val_bind]
      refine ((touches_decide earlier _ c).mono ?_ fun _ h => h).trans
        ((ih _ _).mono (fun m hm => List.mem_cons_of_mem _ hm) fun _ h => h)
      intro m hm
      rw [List.mem_singleton.mp hm]
      exact List.mem_cons_self

/-- Deciding the literals of a block decides all of them. -/
theorem decided_decideAll {code : Code} (hsep : Separate code.members) (earlier : List Member)
    (c : Classification) : ∀ m ∈ code.members, (decideAll earlier code c).val.Decided m := by
  induction code generalizing earlier c with
  | done => exact fun m hm => absurd hm List.not_mem_nil
  | op id ident o rest ih => exact ih hsep [] c
  | branch id ident cond yesBlk noBlk yes no rest _ _ ih => exact ih hsep [] c
  | fn id ident params blk body rest _ ih =>
      rw [Code.members_fn] at hsep ⊢
      obtain ⟨-, hsep', happ⟩ := separate_append.mp
        (show Separate ([⟨id, ident, params, blk, body, rest⟩] ++ rest.members) from hsep)
      simp only [decideAll, Traced.val_bind]
      intro m hm
      rcases List.mem_cons.mp hm with rfl | hm
      · exact (decided_decide earlier _ c).of_touches (touches_decideAll ..) happ.symm
      · exact ih hsep' _ _ m hm

/-! ## Runs -/

/-- A round of tries ends in the state in which all bodies are explored. -/
theorem tryAll_fst (run : List Candidate) (c : Classification) :
    (tryAll run c).val.1 = exploreAll run c := by
  induction run generalizing c with
  | nil => rfl
  | cons x rest ih =>
      obtain ⟨m, explore⟩ := x
      simp only [tryAll, Traced.val_bind]
      split
      · exact ih _
      · simp only [Traced.val_bind, Traced.val_pure]
        exact ih _

/-- Settling a run leaves some of its members, explored from the assumption that they are known. -/
theorem exists_settle_eq (run : List Candidate) (c : Classification) :
    ∃ left : List Candidate, left.Sublist run ∧
      (settle run c).val = exploreAll left (c.assume left) := by
  induction run using settle.induct with
  | case1 run ih =>
      rw [settle_val_eq]
      split
      next => exact ⟨run, List.Sublist.refl _, tryAll_fst run _⟩
      next hr =>
        have hshort := (length_spared_lt_iff fun n => mem_run_of_mem_rejected).mpr
          fun h => hr (List.isEmpty_iff.mpr h)
        obtain ⟨left, hsub, hleft⟩ := ih _ hshort
        exact ⟨left, hsub.trans List.filter_sublist, hleft⟩

/-- Making closures by its results: known members are left out. -/
theorem closeOver_cons_val (x : Candidate) (rest : List Candidate) (c : Classification) :
    (closeOver (x :: rest) c).val =
      if x.1.ident ∈ c.known then (closeOver rest c).val
      else (closeOver rest ((x.2 c).val.capture x.1)).val := by
  rw [closeOver]
  split <;> rfl

/-- Classifying a run leaves some of its members, explored from the assumption that they are known,
and closes over the others. -/
theorem exists_classifyRun_eq (optimize : Bool) (run : List Candidate) (c : Classification) :
    ∃ left : List Candidate, left.Sublist run ∧ (classifyRun optimize run c).val =
      (closeOver run (exploreAll left (c.assume left))).val := by
  have htried : (if optimize then run else []).Sublist run := by
    cases optimize
    · exact List.nil_sublist _
    · exact List.Sublist.refl _
  obtain ⟨left, hsub, hleft⟩ := exists_settle_eq (if optimize then run else []) c
  refine ⟨left, hsub.trans htried, ?_⟩
  rw [← hleft]
  rfl

/-! ### What a run touches -/

/-- The literals of a run, each with those nested in it. -/
def touched (run : List Candidate) : List Member := run.flatMap fun x => x.1 :: x.nested

/-- A run touches its members and what is nested in them. -/
theorem mem_touched {run : List Candidate} :
    m ∈ touched run ↔ ∃ x ∈ run, m ∈ x.1 :: x.nested := List.mem_flatMap

/-- The calls in the bodies of a run. -/
def callsIn (run : List Candidate) : List (RecordId × Name) := run.flatMap (·.1.body.calls)

section Touching

variable {run : List Candidate} (h : ∀ x ∈ run, Visits x.nested x.1.body.calls x.2)
include h

/-- A round touches what is nested in the members. -/
theorem touches_exploreAll (c : Classification) :
    Touches (run.flatMap (·.nested)) (callsIn run) c (exploreAll run c) := by
  induction run generalizing c with
  | nil => exact .refl ..
  | cons x rest ih =>
      have hrest := ih fun y hy => h y (List.mem_cons_of_mem _ hy)
      refine ((h x List.mem_cons_self c).mono ?_ ?_).trans ((hrest _).mono ?_ ?_)
      · exact fun m hm => List.mem_append_left _ hm
      · exact fun y hy => List.mem_append_left _ hy
      · exact fun m hm => List.mem_append_right _ hm
      · exact fun y hy => List.mem_append_right _ hy

/-- Exploring the body of a member and recording its captures. -/
theorem touches_explore_capture {x : Candidate} (hx : x ∈ run) (c : Classification) :
    Touches (x.1 :: x.nested) x.1.body.calls c ((x.2 c).val.capture x.1) := by
  refine ((h x hx c).mono (fun m hm => List.mem_cons_of_mem _ hm) fun _ hc => hc).trans
    ((touches_capture x.1 _).mono ?_ fun _ hc => absurd hc List.not_mem_nil)
  intro m hm
  rw [List.mem_singleton.mp hm]
  exact List.mem_cons_self

/-- Making closures touches the members that become closures and what is nested in them. -/
theorem touches_closeOver (c : Classification) :
    Touches (touched run) (callsIn run) c (closeOver run c).val := by
  induction run generalizing c with
  | nil => exact .refl ..
  | cons x rest ih =>
      have hrest : ∀ c, Touches (touched (x :: rest)) (callsIn (x :: rest)) c
          (closeOver rest c).val := fun c =>
        (ih (fun y hy => h y (List.mem_cons_of_mem _ hy)) c).mono
          (fun m hm => List.mem_append_right _ hm) fun y hy => List.mem_append_right _ hy
      rw [closeOver_cons_val]
      split
      · exact hrest c
      · refine Touches.trans ((touches_explore_capture h List.mem_cons_self c).mono ?_ ?_) (hrest _)
        · exact fun m hm => List.mem_append_left _ hm
        · exact fun y hy => List.mem_append_left _ hy

/-- Classifying a run touches its members and what is nested in them. -/
theorem visits_classifyRun (optimize : Bool) :
    Visits (touched run) (callsIn run) (classifyRun optimize run) := by
  intro c
  obtain ⟨left, hsub, hval⟩ := exists_classifyRun_eq optimize run c
  rw [hval]
  refine (Touches.trans ((touches_assume left c).mono ?_ ?_) ?_).trans (touches_closeOver h _)
  · intro m hm
    obtain ⟨x, hx, rfl⟩ := List.mem_map.mp hm
    exact mem_touched.mpr ⟨x, hsub.subset hx, List.mem_cons_self⟩
  · exact fun _ hx => absurd hx List.not_mem_nil
  · refine (touches_exploreAll (fun x hx => h x (hsub.subset hx)) _).mono ?_ ?_
    · intro m hm
      obtain ⟨x, hx, hm⟩ := List.mem_flatMap.mp hm
      exact mem_touched.mpr ⟨x, hsub.subset hx, List.mem_cons_of_mem _ hm⟩
    · intro y hy
      obtain ⟨x, hx, hy⟩ := List.mem_flatMap.mp hy
      exact List.mem_flatMap.mpr ⟨x, hsub.subset hx, hy⟩

end Touching

/-! ### What a run decides -/

/-- From a state that does not know the literals `fresh`, a step decides the literals `ms`. -/
def Decides (fresh ms : List Member) (e : Exploration) : Prop :=
  ∀ c : Classification, (∀ m ∈ fresh, m.ident ∉ c.known) → ∀ m ∈ ms, (e c).val.Decided m

/-- Fewer literals may be asked for, and more may have to be fresh. -/
theorem Decides.mono {fresh fresh' ms ms' : List Member} {e : Exploration} (h : Decides fresh ms e)
    (hf : ∀ m ∈ fresh, m ∈ fresh') (hm : ∀ m ∈ ms', m ∈ ms) : Decides fresh' ms' e :=
  fun c hc m hmem => h c (fun m hm => hc m (hf m hm)) m (hm m hmem)

/-- Two steps in sequence decide what each decides, if neither touches what concerns the other. -/
theorem Decides.bind {fresh fresh' ms ms' touched touched' : List Member}
    {calls calls' : List (RecordId × Name)} {e e' : Exploration} (h : Decides fresh ms e)
    (hv : Visits touched calls e) (h' : Decides fresh' ms' e') (hv' : Visits touched' calls' e')
    (hf : Apart touched fresh') (hm : Apart touched' ms) :
    Decides (fresh ++ fresh') (ms ++ ms') (fun c => e c >>= e') := by
  intro c hc m hmem
  rcases List.mem_append.mp hmem with hmem | hmem
  · refine (h c (fun m hm => hc m (List.mem_append_left _ hm)) m hmem).of_touches (hv' _) ?_
    intro m₁ hm₁ m₂ hm₂
    rw [List.mem_singleton.mp hm₂]
    exact hm m₁ hm₁ m hmem
  · refine h' _ (fun m hm => ?_) m hmem
    rw [(hv c).mem_known_iff fun m' hm' => (hf m' hm' m hm).1]
    exact hc m (List.mem_append_right _ hm)

/-- What is given for a run: the bodies touch what is nested in them and decide it. -/
structure RunDecides (run : List Candidate) : Prop extends RunApart run where
  visits : ∀ x ∈ run, Visits x.nested x.1.body.calls x.2
  decides : ∀ x ∈ run, Decides x.nested x.nested x.2

/-- The literals nested in a known candidate are decided; those nested in another one are not known. -/
def Dealt (c : Classification) (x : Candidate) : Prop :=
  if x.1.ident ∈ c.known then ∀ m ∈ x.nested, c.Decided m else ∀ m ∈ x.nested, m.ident ∉ c.known

/-- What is nested in a member stays decided as long as only others are touched. -/
theorem decided_of_touches {x : Candidate} (h : ∀ m ∈ x.nested, c.Decided m)
    (ht : Touches ms calls c c') (ha : Apart ms x.nested) : ∀ m ∈ x.nested, c'.Decided m := by
  intro m hm
  refine (h m hm).of_touches ht fun m' hm' m₁ hm₁ => ?_
  rw [List.mem_singleton.mp hm₁]
  exact ha m' hm' m hm

/-- Touching other literals leaves a candidate as it is. -/
theorem Dealt.of_touches {x : Candidate} (h : c.Dealt x) (ht : Touches ms calls c c')
    (ha : Apart ms (x.1 :: x.nested)) : c'.Dealt x := by
  have hnested : Apart ms x.nested := fun m hm m' hm' => ha m hm m' (List.mem_cons_of_mem _ hm')
  have hstand : x.1.ident ∈ c'.known ↔ x.1.ident ∈ c.known :=
    ht.mem_known_iff fun m hm => (ha m hm _ List.mem_cons_self).1
  unfold Dealt at h ⊢
  by_cases hk : x.1.ident ∈ c.known
  · rw [if_pos (hstand.mpr hk)]
    rw [if_pos hk] at h
    exact decided_of_touches h ht hnested
  · rw [if_neg fun hk' => hk (hstand.mp hk')]
    rw [if_neg hk] at h
    intro m hm
    rw [ht.mem_known_iff fun m' hm' => (hnested m' hm' m hm).1]
    exact h m hm

namespace RunDecides

variable {run : List Candidate}

/-- Part of a run decides what is nested in it. -/
theorem sublist (h : RunDecides run) {part : List Candidate} (hs : part.Sublist run) :
    RunDecides part where
  toRunApart := h.toRunApart.sublist hs
  visits := fun x hx => h.visits x (hs.subset hx)
  decides := fun x hx => h.decides x (hs.subset hx)

/-- The rest of a run is apart from its first member. -/
theorem apart_touched {x : Candidate} {rest : List Candidate} (h : RunDecides (x :: rest)) :
    Apart (touched rest) (x.1 :: x.nested) := by
  intro m hm m' hm'
  obtain ⟨y, hy, hm⟩ := mem_touched.mp hm
  exact ((List.pairwise_cons.mp h.apart).1 y hy).symm m hm m' hm'

/-- A round decides what is nested in the members. -/
theorem decided_exploreAll (h : RunDecides run)
    (hf : ∀ x ∈ run, ∀ m ∈ x.nested, m.ident ∉ c.known) :
    ∀ x ∈ run, ∀ m ∈ x.nested, (exploreAll run c).Decided m := by
  induction run generalizing c with
  | nil => exact fun x hx => absurd hx List.not_mem_nil
  | cons x rest ih =>
      have hx : x ∈ x :: rest := List.mem_cons_self
      have hrest := h.sublist (List.sublist_cons_self x rest)
      have happ := h.apart_touched
      intro y hy
      rcases List.mem_cons.mp hy with rfl | hy
      · refine decided_of_touches (h.decides y hx c (hf y hx)) (touches_exploreAll hrest.visits _) ?_
        intro m hm m' hm'
        obtain ⟨z, hz, hm⟩ := List.mem_flatMap.mp hm
        exact happ m (mem_touched.mpr ⟨z, hz, List.mem_cons_of_mem _ hm⟩) m'
          (List.mem_cons_of_mem _ hm')
      · refine ih hrest (fun z hz m hm => ?_) y hy
        rw [(h.visits x hx c).mem_known_iff]
        · exact hf z (List.mem_cons_of_mem _ hz) m hm
        · intro m' hm'
          exact (happ m (mem_touched.mpr ⟨z, hz, List.mem_cons_of_mem _ hm⟩) m'
            (List.mem_cons_of_mem _ hm')).1.symm

/-- Making closures decides what is nested in the members that become closures and keeps the
rest. -/
theorem decided_closeOver (h : RunDecides run) (hd : ∀ x ∈ run, c.Dealt x) :
    ∀ x ∈ run, ∀ m ∈ x.nested, (closeOver run c).val.Decided m := by
  induction run generalizing c with
  | nil => exact fun x hx => absurd hx List.not_mem_nil
  | cons x rest ih =>
      have hx : x ∈ x :: rest := List.mem_cons_self
      have hrest := h.sublist (List.sublist_cons_self x rest)
      have happ := h.apart_touched
      have hnested : Apart (touched rest) x.nested := fun m hm m' hm' =>
        happ m hm m' (List.mem_cons_of_mem _ hm')
      have hdx := hd x hx
      unfold Dealt at hdx
      rw [closeOver_cons_val]
      by_cases hk : x.1.ident ∈ c.known
      · rw [if_pos hk] at hdx ⊢
        intro y hy
        rcases List.mem_cons.mp hy with rfl | hy
        · exact decided_of_touches hdx (touches_closeOver hrest.visits c) hnested
        · exact ih hrest (fun z hz => hd z (List.mem_cons_of_mem _ hz)) y hy
      · rw [if_neg hk] at hdx ⊢
        intro y hy
        rcases List.mem_cons.mp hy with rfl | hy
        · refine decided_of_touches (decided_of_touches (h.decides y hx c hdx)
            (touches_capture y.1 _) (h.own y hx)) (touches_closeOver hrest.visits _) hnested
        · refine ih hrest (fun z hz => ?_) y hy
          exact (hd z (List.mem_cons_of_mem _ hz)).of_touches
            (touches_explore_capture h.visits hx c) ((List.pairwise_cons.mp h.apart).1 z hz)

/-- What is left of a run is explored in the state that is kept, and the others are not known there. -/
theorem dealt_of_left (h : RunDecides run) (hf : ∀ m ∈ touched run, m.ident ∉ c.known)
    {left : List Candidate} (hsub : left.Sublist run) :
    ∀ x ∈ run, (exploreAll left (c.assume left)).Dealt x := by
  have hleft := h.sublist hsub
  have htouch := touches_exploreAll hleft.visits (c.assume left)
  have hfresh : ∀ x ∈ run, ∀ m ∈ x.nested, m.ident ∉ (c.assume left).known := by
    intro x hx m hm hk
    rcases mem_known_assume.mp hk with hk | ⟨y, hy, hi⟩
    · exact hf m (mem_touched.mpr ⟨x, hx, List.mem_cons_of_mem _ hm⟩) hk
    · exact (h.apart_nested (hsub.subset hy) hx _ List.mem_cons_self m hm).1 hi
  intro x hx
  unfold Dealt
  by_cases hin : x ∈ left
  · rw [if_pos (htouch.keeps _ (mem_known_assume.mpr (.inr ⟨x, hin, rfl⟩)))]
    exact hleft.decided_exploreAll (fun y hy => hfresh y (hsub.subset hy)) x hin
  · -- a member that is not left differs from all that is left, with what is nested there
    have happ : ∀ y ∈ left, Apart (y.1 :: y.nested) (x.1 :: x.nested) := fun y hy =>
      h.apart_of_ne (hsub.subset hy) hx fun he => hin (he ▸ hy)
    have hother : ∀ m ∈ x.1 :: x.nested, ∀ m' ∈ left.flatMap (·.nested), m'.ident ≠ m.ident := by
      intro m hm m' hm'
      obtain ⟨y, hy, hm'⟩ := List.mem_flatMap.mp hm'
      exact (happ y hy m' (List.mem_cons_of_mem _ hm') m hm).1
    have hk : x.1.ident ∉ (exploreAll left (c.assume left)).known := by
      rw [htouch.mem_known_iff (hother _ List.mem_cons_self), mem_known_assume]
      rintro (hk | ⟨y, hy, hi⟩)
      · exact hf _ (mem_touched.mpr ⟨x, hx, List.mem_cons_self⟩) hk
      · exact (happ y hy _ List.mem_cons_self _ List.mem_cons_self).1 hi
    rw [if_neg hk]
    intro m hm
    rw [htouch.mem_known_iff (hother m (List.mem_cons_of_mem _ hm))]
    exact hfresh x hx m hm

/-- Classifying a run decides everything nested in its members. -/
theorem decides_classifyRun (h : RunDecides run) (optimize : Bool) :
    Decides (touched run) (run.flatMap (·.nested)) (classifyRun optimize run) := by
  intro c hf m hm
  obtain ⟨x, hx, hm⟩ := List.mem_flatMap.mp hm
  obtain ⟨left, hsub, hval⟩ := exists_classifyRun_eq optimize run c
  rw [hval]
  exact h.decided_closeOver (h.dealt_of_left hf hsub) x hx m hm

end RunDecides

end Classification

/-! ## The exploration of code -/

namespace Code

open Classification

/-- A plan explores the run that code begins with and touches nothing but the code. -/
structure PlanVisits (code : Code) (p : Plan) : Prop where
  run : p.run.map (·.1) = code.run
  bodies : ∀ x ∈ p.run, Visits x.nested x.1.body.calls x.2
  after : Visits code.afterRun.literals code.afterRun.calls p.after

/-- The run that code begins with touches literals of the code only. -/
theorem PlanVisits.mem_literals {code : Code} {p : Plan} (h : PlanVisits code p) {m : Member}
    (hm : m ∈ touched p.run) : m ∈ code.literals := by
  obtain ⟨x, hx, hm⟩ := mem_touched.mp hm
  have hrun : x.1 ∈ code.run := h.run ▸ List.mem_map_of_mem hx
  refine code.literals_perm.mem_iff.mpr ?_
  rcases List.mem_cons.mp hm with rfl | hm
  · exact List.mem_append_left _ hrun
  · exact List.mem_append_right _ (List.mem_append_left _ (List.mem_flatMap.mpr ⟨x.1, hrun, hm⟩))

/-- Exploring code touches its own literals and calls. -/
theorem PlanVisits.explore {code : Code} {p : Plan} (h : PlanVisits code p) (optimize : Bool) :
    Visits code.literals code.calls (p.explore optimize) := by
  refine ((visits_classifyRun h.bodies optimize).bind h.after).mono ?_ ?_
  · intro m hm
    rcases List.mem_append.mp hm with hm | hm
    · exact h.mem_literals hm
    · exact code.literals_perm.mem_iff.mpr (List.mem_append_right _ (List.mem_append_right _ hm))
  · have hcalls : callsIn p.run = code.run.flatMap (·.body.calls) := by
      rw [callsIn, ← h.run, List.flatMap_map]
    rw [hcalls, ← calls_eq]
    exact fun _ hx => hx

/-- Exploring a block touches its own literals and calls. -/
theorem PlanVisits.exploreBlock {code : Code} {p : Plan} (h : PlanVisits code p)
    (optimize : Bool) : Visits code.literals code.calls (p.exploreBlock optimize code) := by
  refine (Visits.bind (h.explore optimize) (touches_decideAll [] code)).mono ?_ ?_
  · intro m hm
    rcases List.mem_append.mp hm with hm | hm
    · exact hm
    · exact members_subset_literals hm
  · rw [List.append_nil]
    exact fun _ hx => hx

/-- Exploring code touches nothing but the code. -/
theorem visits_plan (optimize : Bool) (code : Code) : PlanVisits code (code.plan optimize) := by
  induction code with
  | done => exact ⟨rfl, by simp [plan], fun c => .refl ..⟩
  | op id ident o rest ih =>
      exact ⟨rfl, by simp [plan], Visits.bind (touches_visit id ident o) (ih.explore optimize)⟩
  | fn id ident params blk body rest ihb ih =>
      refine ⟨congrArg _ ih.run, ?_, ih.after⟩
      intro x hx
      rcases List.mem_cons.mp hx with rfl | hx
      · exact ihb.exploreBlock optimize
      · exact ih.bodies x hx
  | branch id ident cond yesBlk noBlk yes no rest ihy ihn ih =>
      have hperm := literals_branch_perm id ident cond yesBlk noBlk yes no rest
      refine ⟨rfl, by simp [plan], ?_⟩
      refine ((ihy.exploreBlock optimize).bind
        ((ihn.exploreBlock optimize).bind (ih.explore optimize))).mono ?_ ?_
      · exact fun m hm => hperm.mem_iff.mpr hm
      · rw [← List.append_assoc]
        exact fun _ hx => hx

/-- A plan decides what is nested in the run that code begins with, and in what follows. -/
structure PlanDecides (code : Code) (p : Plan) : Prop where
  bodies : ∀ x ∈ p.run, Decides x.nested x.nested x.2
  after : Decides code.afterRun.literals (code.afterRun.innerSites.map (·.member)) p.after

variable {code : Code} {p : Plan}

/-- The run that code begins with decides what is nested in it. -/
theorem PlanDecides.runDecides (h : PlanDecides code p) (hv : PlanVisits code p)
    (hsep : Separate code.literals) : RunDecides p.run := by
  have hsep' := hsep.of_perm code.literals_perm
  rw [← List.append_assoc] at hsep'
  obtain ⟨hown, hpair⟩ := (separate_append.mp hsep').1.pairwise
  rw [← hv.run, List.pairwise_map] at hpair
  exact ⟨⟨fun x hx => hown x.1 (hv.run ▸ List.mem_map_of_mem hx), hpair⟩, hv.bodies, h.bodies⟩

/-- The run that code begins with touches no literal behind it. -/
theorem PlanVisits.apart_touched (hv : PlanVisits code p) (hsep : Separate code.literals) :
    Apart (touched p.run) code.afterRun.literals := by
  have hsep' := hsep.of_perm code.literals_perm
  rw [← List.append_assoc] at hsep'
  intro m hm m' hm'
  refine (separate_append.mp hsep').2.2 m ?_ m' hm'
  obtain ⟨x, hx, hm⟩ := mem_touched.mp hm
  have hrun : x.1 ∈ code.run := hv.run ▸ List.mem_map_of_mem hx
  rcases List.mem_cons.mp hm with rfl | hm
  · exact List.mem_append_left _ hrun
  · exact List.mem_append_right _ (List.mem_flatMap.mpr ⟨x.1, hrun, hm⟩)

/-- Exploring code decides the literals in nested blocks. -/
theorem PlanDecides.explore (h : PlanDecides code p) (hv : PlanVisits code p)
    (hsep : Separate code.literals) (optimize : Bool) :
    Decides code.literals (code.innerSites.map (·.member)) (p.explore optimize) := by
  have happ := hv.apart_touched hsep
  have hnested : ∀ m ∈ p.run.flatMap (·.nested), m ∈ touched p.run := by
    intro m hm
    obtain ⟨x, hx, hm⟩ := List.mem_flatMap.mp hm
    exact mem_touched.mpr ⟨x, hx, List.mem_cons_of_mem _ hm⟩
  refine (((h.runDecides hv hsep).decides_classifyRun optimize).bind
    (visits_classifyRun hv.bodies optimize) h.after hv.after happ
    fun m hm m' hm' => happ.symm m hm m' (hnested m' hm')).mono ?_ ?_
  · intro m hm
    rcases List.mem_append.mp hm with hm | hm
    · exact hv.mem_literals hm
    · exact code.literals_perm.mem_iff.mpr (List.mem_append_right _ (List.mem_append_right _ hm))
  · intro m hm
    have hflat : p.run.flatMap (·.nested) = code.run.flatMap (·.body.literals) := by
      rw [← hv.run, List.flatMap_map]
      rfl
    rw [innerSites_eq, List.map_append, List.map_flatMap] at hm
    rw [hflat]
    exact hm

/-- Exploring a block and deciding its literals decides all literals in it. -/
theorem PlanDecides.exploreBlock (h : PlanDecides code p) (hv : PlanVisits code p)
    (hsep : Separate code.literals) (optimize : Bool) :
    Decides code.literals code.literals (p.exploreBlock optimize code) := by
  intro c hf m hm
  have hinner := h.explore hv hsep optimize c hf
  rw [literals_eq] at hsep hm
  obtain ⟨hown, -, happ⟩ := separate_append.mp hsep
  have hval : (p.exploreBlock optimize code c).val =
      (decideAll [] code (p.explore optimize c).val).val := rfl
  rw [hval]
  rcases List.mem_append.mp hm with hm | hm
  · exact decided_decideAll hown [] _ m hm
  · refine (hinner m hm).of_touches (touches_decideAll [] code _) fun m₁ hm₁ m₂ hm₂ => ?_
    rw [List.mem_singleton.mp hm₂]
    exact happ m₁ hm₁ m hm

/-- If no two literals of code share their name or their record, exploring the code decides all of
them. -/
theorem decides_plan (optimize : Bool) (code : Code) (hsep : Separate code.literals) :
    PlanDecides code (code.plan optimize) := by
  induction code with
  | done => exact ⟨by simp [plan], fun c _ m hm => absurd hm List.not_mem_nil⟩
  | op id ident o rest ih =>
      refine ⟨by simp [plan], fun c hf => ?_⟩
      refine (ih hsep).explore (visits_plan optimize rest) hsep optimize _ fun m hm => ?_
      rw [(touches_visit id ident o c).mem_known_iff fun m' hm' => absurd hm' List.not_mem_nil]
      exact hf m hm
  | fn id ident params blk body rest ihb ih =>
      obtain ⟨-, hsep', -⟩ := separate_append.mp (show
        Separate ([⟨id, ident, params, blk, body, rest⟩] ++ (body.literals ++ rest.literals)) from
          hsep.of_perm (literals_fn_perm id ident params blk body rest))
      obtain ⟨hsepb, hsepr, -⟩ := separate_append.mp hsep'
      refine ⟨?_, (ih hsepr).after⟩
      intro x hx
      rcases List.mem_cons.mp hx with rfl | hx
      · exact (ihb hsepb).exploreBlock (visits_plan optimize body) hsepb optimize
      · exact (ih hsepr).bodies x hx
  | branch id ident cond yesBlk noBlk yes no rest ihy ihn ih =>
      have hperm := literals_branch_perm id ident cond yesBlk noBlk yes no rest
      obtain ⟨hsepy, hsep', happy⟩ := separate_append.mp (hsep.of_perm hperm)
      obtain ⟨hsepn, hsepr, happn⟩ := separate_append.mp hsep'
      have hrest := ((ihn hsepn).exploreBlock (visits_plan optimize no) hsepn optimize).bind
        ((visits_plan optimize no).exploreBlock optimize)
        ((ih hsepr).explore (visits_plan optimize rest) hsepr optimize)
        ((visits_plan optimize rest).explore optimize) happn happn.symm
      have hvrest := ((visits_plan optimize no).exploreBlock optimize).bind
        ((visits_plan optimize rest).explore optimize)
      refine ⟨by simp [plan], ?_⟩
      refine (((ihy hsepy).exploreBlock (visits_plan optimize yes) hsepy optimize).bind
        ((visits_plan optimize yes).exploreBlock optimize) hrest hvrest happy happy.symm).mono ?_ ?_
      · exact fun m hm => hperm.mem_iff.mpr hm
      · intro m hm
        have hinner : (branch id ident cond yesBlk noBlk yes no rest).innerSites.map (·.member) =
            (yes.literals ++ no.literals) ++ rest.innerSites.map (·.member) := by
          rw [innerSites, List.map_append, List.map_append]
          rfl
        rw [← List.append_assoc, ← hinner]
        exact hm

end Code

/-! ## The classification of code -/

/-- Everything that a classification has on record is about code: its calls are calls there, and its
decisions are about literals there. -/
structure Classification.Concerns (c : Classification) (code : Code) : Prop where
  call : ∀ id, c.closureCalls.contains id = true → ∃ callee, (id, callee) ∈ code.calls
  decision : ∀ id d, c.decisions.get? id = some d → ∃ m ∈ code.literals, m.id = id ∧ d.About m

/-- A classification is about the literals and calls of its code. -/
theorem Code.concerns_classify (optimize : Bool) (code : Code) :
    (code.classify optimize).val.Concerns code := by
  have h : Touches code.literals code.calls .empty (code.classify optimize).val :=
    (code.visits_plan optimize).exploreBlock optimize .empty
  refine ⟨fun id hid => (h.calls id hid).resolve_left Bool.false_ne_true, fun id d hd => ?_⟩
  rcases h.decisions id with heq | ⟨m, hm, hid, d', hd', habout⟩
  · rw [heq] at hd
    cases hd
  · rw [hd] at hd'
    cases hd'
    exact ⟨m, hm, hid, habout⟩

/-- If no two literals share their name or their record, all of them are decided. -/
theorem Code.decided_classify (optimize : Bool) {code : Code} (hsep : Separate code.literals) :
    ∀ m ∈ code.literals, (code.classify optimize).val.Decided m :=
  (code.decides_plan optimize hsep).exploreBlock (code.visits_plan optimize) hsep optimize .empty
    fun m _ => NameSet.not_mem_empty m.ident

/-! ## Without the optimisation nothing becomes known -/

/-- A step leaves the known functions as they are. -/
def KeepsKnown (e : Exploration) : Prop := ∀ c, (e c).val.known = c.known

/-- Steps one after the other. -/
theorem KeepsKnown.bind {e e' : Exploration} (h : KeepsKnown e) (h' : KeepsKnown e') :
    KeepsKnown (fun c => e c >>= e') :=
  fun c => (h' (e c).val).trans (h c)

namespace Classification

/-- A flat instruction makes no function known. -/
theorem keepsKnown_visit (id : RecordId) (ident : Name) (o : Operation) :
    KeepsKnown fun c => c.visit id ident o := by
  intro c
  cases o with
  | app callee args indirect =>
      simp only [visit]
      split <;> rfl
  | _ => rfl

/-- Closures are not known functions. -/
theorem keepsKnown_closeOver {run : List Candidate} (h : ∀ x ∈ run, KeepsKnown x.2) :
    KeepsKnown (closeOver run) := by
  induction run with
  | nil => exact fun _ => rfl
  | cons x rest ih =>
      have hrest := ih fun y hy => h y (List.mem_cons_of_mem _ hy)
      intro c
      rw [closeOver_cons_val]
      split
      · exact hrest c
      · exact (hrest _).trans (h x List.mem_cons_self c)

end Classification

namespace Code

/-- The bodies of the run and what follows it leave the known functions as they are. -/
structure PlanKeeps (p : Plan) : Prop where
  bodies : ∀ x ∈ p.run, KeepsKnown x.2
  after : KeepsKnown p.after

/-- No member of the run is tried as known. -/
theorem PlanKeeps.explore {p : Plan} (h : PlanKeeps p) : KeepsKnown (p.explore false) := by
  have hrun : KeepsKnown (Classification.classifyRun false p.run) := by
    rw [Classification.classifyRun_false]
    exact Classification.keepsKnown_closeOver h.bodies
  exact hrun.bind h.after

/-- Neither does deciding the literals of a block make a function known. -/
theorem PlanKeeps.exploreBlock {p : Plan} (h : PlanKeeps p) (code : Code) :
    KeepsKnown (p.exploreBlock false code) :=
  h.explore.bind (Classification.known_decideAll [] code)

/-- Without the optimisation, exploring code makes no function known. -/
theorem planKeeps (code : Code) : PlanKeeps (code.plan false) := by
  induction code with
  | done => exact ⟨fun _ hx => absurd hx List.not_mem_nil, fun _ => rfl⟩
  | op id ident o rest ih =>
      refine ⟨fun _ hx => absurd hx List.not_mem_nil, ?_⟩
      exact (Classification.keepsKnown_visit id ident o).bind ih.explore
  | fn id ident params blk body rest ihb ih =>
      refine ⟨?_, ih.after⟩
      intro x hx
      rcases List.mem_cons.mp hx with rfl | hx
      · exact ihb.exploreBlock body
      · exact ih.bodies x hx
  | branch id ident cond yesBlk noBlk yes no rest ihy ihn ih =>
      refine ⟨fun _ hx => absurd hx List.not_mem_nil, ?_⟩
      exact (ihy.exploreBlock yes).bind ((ihn.exploreBlock no).bind ih.explore)

/-- Without the optimisation no function is known. -/
theorem known_classify_false (code : Code) : (code.classify false).val.known = ∅ :=
  (planKeeps code).exploreBlock code .empty

end Code

end ClosureConversion
