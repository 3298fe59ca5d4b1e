import ClosureConversion.Proofs.Exploration.Contract

/-!
# Runs of literals

A run is settled by assuming and retrying, and its other members are closed over. `RunSpec` collects
what is given for a run: the bodies can be explored, and nothing nested in them is visible outside.

* Whether a member has free names depends on the visible literals only, and exploring bodies does not
  change the standing of those. So a round of tries rejects exactly the members that have free names
  under the assumption the round began with (`tryAll_val`).
* Hence what `settle` leaves is explored from an assumption that holds for all of it, and every member
  that some set of functions supports is left (`settle_val`). This is the argument by which a
  decreasing iteration ends in the greatest fixed point, made for one run in its surroundings.
* `classifyRun_explores` puts the three parts together: assume, explore what was assumed, close over
  the rest.
-/

namespace ClosureConversion

namespace Candidate

/-- The literals nested in the body of a candidate. -/
def nested (x : Candidate) : List Member := x.1.body.literals

end Candidate

/-- What is given for a run whose surroundings, the run included, show the literals `inner`. -/
structure RunSpec (optimize : Bool) (fns inner : List Name) (run : List Candidate) : Prop where
  explores : ∀ x ∈ run,
    Explores optimize fns inner x.nested [] x.1.body.sites x.1.body.calls x.2
  inScope : ∀ x ∈ run, x.1.body.erase.CallsInScope fns inner
  visible : ∀ x ∈ run, x.1.ident ∈ inner
  hidden : ∀ x ∈ run, ∀ m ∈ x.nested, m.ident ∉ inner
  own : ∀ x ∈ run, Apart [x.1] x.nested
  apart : run.Pairwise fun x y => Apart (x.1 :: x.nested) (y.1 :: y.nested)
  declared : ∀ x ∈ run, x.1.ident ∈ fns
  nestedDeclared : ∀ x ∈ run, ∀ m ∈ x.nested, m.ident ∈ fns

/-- To be apart is mutual. -/
theorem Apart.symm {ms ms' : List Member} (h : Apart ms ms') : Apart ms' ms := fun m hm m' hm' =>
  ⟨(h m' hm' m hm).1.symm, (h m' hm' m hm).2.symm⟩

/-- The members of a run with what is nested in them differ from one another. -/
structure RunApart (run : List Candidate) : Prop where
  own : ∀ x ∈ run, Apart [x.1] x.nested
  apart : run.Pairwise fun x y => Apart (x.1 :: x.nested) (y.1 :: y.nested)

namespace RunApart

variable {run : List Candidate} {x y : Candidate}

/-- The members of a part of a run are apart. -/
theorem sublist (h : RunApart run) {part : List Candidate} (hs : part.Sublist run) :
    RunApart part where
  own := fun x hx => h.own x (hs.subset hx)
  apart := h.apart.sublist hs

/-- Two members of a run are apart, with everything nested in them. -/
theorem apart_of_ne (h : RunApart run) (hx : x ∈ run) (hy : y ∈ run) (hne : x ≠ y) :
    Apart (x.1 :: x.nested) (y.1 :: y.nested) := by
  have : Std.Symm fun x y : Candidate => Apart (x.1 :: x.nested) (y.1 :: y.nested) :=
    ⟨fun _ _ hxy => hxy.symm⟩
  exact h.apart.forall hx hy hne

/-- A member of a run is apart from what is nested in any of them. -/
theorem apart_nested (h : RunApart run) (hx : x ∈ run) (hy : y ∈ run) : Apart [x.1] y.nested := by
  by_cases hxy : x = y
  · subst hxy
    exact h.own x hx
  · intro m hm m' hm'
    rw [List.mem_singleton.mp hm]
    exact h.apart_of_ne hx hy hxy _ List.mem_cons_self m' (List.mem_cons_of_mem _ hm')

/-- Members of a run with the same name are the same. -/
theorem eq_of_ident_eq (h : RunApart run) (hx : x ∈ run) (hy : y ∈ run)
    (hi : x.1.ident = y.1.ident) : x = y := by
  by_contra hne
  exact (h.apart_of_ne hx hy hne _ List.mem_cons_self _ List.mem_cons_self).1 hi

end RunApart

namespace RunSpec

variable {optimize : Bool} {fns inner : List Name} {run : List Candidate}

/-- What is given for a run is given for a part of it. -/
theorem sublist (h : RunSpec optimize fns inner run) {part : List Candidate}
    (hs : part.Sublist run) : RunSpec optimize fns inner part where
  explores := fun x hx => h.explores x (hs.subset hx)
  inScope := fun x hx => h.inScope x (hs.subset hx)
  visible := fun x hx => h.visible x (hs.subset hx)
  hidden := fun x hx => h.hidden x (hs.subset hx)
  own := fun x hx => h.own x (hs.subset hx)
  apart := h.apart.sublist hs
  declared := fun x hx => h.declared x (hs.subset hx)
  nestedDeclared := fun x hx => h.nestedDeclared x (hs.subset hx)

/-- The members of a run are apart. -/
theorem runApart (h : RunSpec optimize fns inner run) : RunApart run := ⟨h.own, h.apart⟩

/-- The free names of a member are fixed by the standing of the visible literals. -/
theorem freeNames_congr (h : RunSpec optimize fns inner run) {known known' : NameSet}
    (hk : ∀ n ∈ known, n ∈ fns) (hk' : ∀ n ∈ known', n ∈ fns)
    (hs : ∀ n ∈ inner, n ∈ known ↔ n ∈ known') {x : Candidate} (hx : x ∈ run) :
    x.1.freeNames known = x.1.freeNames known' :=
  Member.freeNames_congr hk hk' (h.inScope x hx) hs

end RunSpec

/-- The literals on record when bodies are explored: the pending ones and those nested in
members. -/
theorem mem_recorded_flatMap {pending : List Member} {run : List Candidate} {m : Member} :
    m ∈ recorded pending (run.flatMap (·.1.body.sites)) ↔ m ∈ pending ∨ ∃ x ∈ run, m ∈ x.nested := by
  unfold recorded Candidate.nested Code.literals
  simp only [List.mem_append, List.mem_map, List.mem_flatMap]
  refine or_congr_right ⟨?_, ?_⟩
  · rintro ⟨s, ⟨x, hx, hs⟩, rfl⟩
    exact ⟨x, hx, s, hs, rfl⟩
  · rintro ⟨x, hx, s, hs, rfl⟩
    exact ⟨s, ⟨x, hx, hs⟩, rfl⟩

/-- The literals on record for a run: its members and those nested in them. -/
theorem mem_recorded_run {run : List Candidate} {m : Member} :
    m ∈ recorded (run.map (·.1)) (run.flatMap (·.1.body.sites)) ↔
      ∃ x ∈ run, m ∈ x.1 :: x.nested := by
  rw [mem_recorded_flatMap, List.mem_map]
  constructor
  · rintro (⟨x, hx, rfl⟩ | ⟨x, hx, hm⟩)
    · exact ⟨x, hx, List.mem_cons_self⟩
    · exact ⟨x, hx, List.mem_cons_of_mem _ hm⟩
  · rintro ⟨x, hx, hm⟩
    rcases List.mem_cons.mp hm with rfl | hm
    · exact .inl ⟨x, hx, rfl⟩
    · exact .inr ⟨x, hx, hm⟩

namespace Classification

variable {optimize : Bool} {fns inner : List Name} {run : List Candidate} {c : Classification}

/-! ## Exploring bodies -/

/-- Explore the bodies of candidates one after the other. -/
def exploreAll (run : List Candidate) (c : Classification) : Classification :=
  run.foldl (fun c x => (x.2 c).val) c

/-- Exploring bodies one after the other makes progress on what is nested in them. -/
theorem exploreAll_progress (h : RunSpec optimize fns inner run) (hc : ∀ n ∈ c.known, n ∈ fns)
    (hf : ∀ x ∈ run, c.Fresh x.nested) :
    Progress optimize fns inner (run.flatMap (·.nested)) [] (run.flatMap (·.1.body.sites))
      (run.flatMap (·.1.body.calls)) c (exploreAll run c) := by
  induction run generalizing c with
  | nil => exact Progress.refl ..
  | cons x rest ih =>
      have hx : x ∈ x :: rest := List.mem_cons_self
      have hrest := h.sublist (List.sublist_cons_self x rest)
      have hsub : ∀ y ∈ rest, y ∈ x :: rest := fun y hy => List.mem_cons_of_mem _ hy
      have hfst := h.explores x hx c hc (hf x hx)
      have hc₁ := hfst.known_subset hc (h.nestedDeclared x hx)
      have happ : ∀ y ∈ rest, Apart x.nested y.nested := by
        intro y hy m hm m' hm'
        exact (List.pairwise_cons.mp h.apart).1 y hy m (List.mem_cons_of_mem _ hm) m'
          (List.mem_cons_of_mem _ hm')
      have hf₁ : ∀ y ∈ rest, ((x.2 c).val).Fresh y.nested := by
        intro y hy
        refine hfst.fresh hc₁ (hf y (hsub y hy)) ?_ ?_
        · exact fun m hm m' hm' => (happ y hy m' hm' m hm).1
        · exact fun m hm m' hm' => (happ y hy m' hm' m hm).1
      refine hfst.trans (ih hrest hc₁ hf₁) ?_ ?_ ?_ ?_
      · intro m hm m' hm'
        obtain ⟨y, hy, hm'⟩ := (mem_recorded_flatMap.mp hm').resolve_left List.not_mem_nil
        exact happ y hy m hm m' hm'
      · intro m hm m' hm'
        obtain ⟨y, hy, hm'⟩ := List.mem_flatMap.mp hm'
        exact (happ y hy m hm m' hm').1.symm
      · intro n hn m' hm'
        obtain ⟨y, hy, hm'⟩ := List.mem_flatMap.mp hm'
        rintro rfl
        exact h.hidden y (hsub y hy) m' hm' hn
      · exact fun n hn => .inl hn

/-- Exploring bodies does not change the standing of what is visible. -/
theorem mem_known_exploreAll (h : RunSpec optimize fns inner run) (hc : ∀ n ∈ c.known, n ∈ fns)
    (hf : ∀ x ∈ run, c.Fresh x.nested) {n : Name} (hn : n ∈ inner) :
    n ∈ (exploreAll run c).known ↔ n ∈ c.known := by
  refine (exploreAll_progress h hc hf).mem_known_iff ?_
  intro m hm
  obtain ⟨x, hx, hm⟩ := List.mem_flatMap.mp hm
  rintro rfl
  exact h.hidden x hx m hm hn

/-! ## Trying -/

/-- The names of the candidates that have free names. -/
def rejects (known : NameSet) (run : List Candidate) : List Name :=
  (run.filter fun x => !(x.1.freeNames known).isEmpty).map (·.1.ident)

/-- The rejected names are those of candidates with free names. -/
theorem mem_rejects {known : NameSet} {n : Name} :
    n ∈ rejects known run ↔
      ∃ x ∈ run, (x.1.freeNames known).isEmpty = false ∧ x.1.ident = n := by
  unfold rejects
  simp only [List.mem_map, List.mem_filter, Bool.not_eq_true', and_assoc]

/-- A round of tries rejects the members that have free names under the assumption it starts from. -/
theorem tryAll_val (h : RunSpec optimize fns inner run) (hc : ∀ n ∈ c.known, n ∈ fns)
    (hf : ∀ x ∈ run, c.Fresh x.nested) :
    (tryAll run c).val = (exploreAll run c, rejects c.known run) := by
  induction run generalizing c with
  | nil => rfl
  | cons x rest ih =>
      obtain ⟨m, explore⟩ := x
      have hx : (m, explore) ∈ (m, explore) :: rest := List.mem_cons_self
      have hone : RunSpec optimize fns inner [(m, explore)] :=
        h.sublist (List.singleton_sublist.mpr hx)
      have hfx : ∀ y ∈ [(m, explore)], c.Fresh (Candidate.nested y) := by
        intro y hy
        rw [List.mem_singleton.mp hy]
        exact hf _ hx
      have hstand : ∀ n ∈ inner, n ∈ (explore c).val.known ↔ n ∈ c.known := fun n hn =>
        mem_known_exploreAll hone hc hfx hn
      have hc₁ : ∀ n ∈ (explore c).val.known, n ∈ fns :=
        (h.explores _ hx c hc (hf _ hx)).known_subset hc (h.nestedDeclared _ hx)
      have hrest := h.sublist (List.sublist_cons_self (m, explore) rest)
      have hf₁ : ∀ y ∈ rest, ((explore c).val).Fresh y.nested := by
        intro y hy
        have happ := (List.pairwise_cons.mp h.apart).1 y hy
        refine (h.explores _ hx c hc (hf _ hx)).fresh hc₁ (hf y (List.mem_cons_of_mem _ hy)) ?_ ?_
        · exact fun m hm m' hm' =>
            (happ m' (List.mem_cons_of_mem _ hm') m (List.mem_cons_of_mem _ hm)).1
        · exact fun m hm m' hm' =>
            (happ m' (List.mem_cons_of_mem _ hm') m (List.mem_cons_of_mem _ hm)).1
      have hsame : ∀ y ∈ (m, explore) :: rest,
          y.1.freeNames (explore c).val.known = y.1.freeNames c.known := fun y hy =>
        h.freeNames_congr hc₁ hc hstand hy
      have hreject : rejects (explore c).val.known rest = rejects c.known rest := by
        unfold rejects
        rw [List.filter_congr fun y hy => by rw [hsame y (List.mem_cons_of_mem _ hy)]]
      have hfree : m.freeNames (explore c).val.known = m.freeNames c.known := hsame _ hx
      have hih := ih hrest hc₁ hf₁
      rw [hreject] at hih
      simp only [tryAll, Traced.val_bind, hfree]
      rw [rejects, List.filter_cons]
      by_cases he : (m.freeNames c.known).isEmpty = true
      · rw [if_pos he, hih, he]
        rfl
      · rw [if_neg he, Bool.not_eq_true] at *
        simp only [Traced.val_bind, hih, he]
        rfl

/-! ## Settling -/

/-- The known functions under an assumption: those before and the candidates. -/
theorem mem_known_assume {n : Name} :
    n ∈ (c.assume run).known ↔ n ∈ c.known ∨ ∃ x ∈ run, x.1.ident = n := by
  unfold assume supposing
  rw [NameSet.mem_insertAll, List.mem_map]

/-- Under an assumption, known functions are literals of the program. -/
theorem assume_known_subset (h : RunSpec optimize fns inner run) (hc : ∀ n ∈ c.known, n ∈ fns) :
    ∀ n ∈ (c.assume run).known, n ∈ fns := by
  intro n hn
  rcases mem_known_assume.mp hn with hn | ⟨x, hx, rfl⟩
  · exact hc n hn
  · exact h.declared x hx

/-- Assuming members of a run leaves fresh what is nested in the run. -/
theorem fresh_assume (h : RunSpec optimize fns inner run) {part : List Candidate}
    (hp : part.Sublist run) {x : Candidate} (hx : x ∈ run) (hf : c.Fresh x.nested) :
    (c.assume part).Fresh x.nested := by
  intro m hm
  refine ⟨?_, (hf m hm).2⟩
  rw [mem_known_assume]
  rintro (hk | ⟨y, hy, hi⟩)
  · exact (hf m hm).1 hk
  · refine h.hidden x hx m hm ?_
    rw [← hi]
    exact h.visible y (hp.subset hy)

/-- A member that belongs to a set of functions without free names passes a round, if the set is
contained in the assumption as far as it is in view. -/
theorem isEmpty_of_supported (h : RunSpec optimize fns inner run) {known : NameSet}
    (hfns : ∀ n ∈ known, n ∈ fns)
    (hin : ∀ n ∈ inner, n ∈ known → n ∈ c.known ∨ ∃ x ∈ run, x.1.ident = n) {x : Candidate}
    (hx : x ∈ run) (hsup : x.1.Supported known) (hk : x.1.ident ∈ known) :
    (x.1.freeNames (c.assume run).known).isEmpty = true := by
  rw [NameSet.isEmpty_iff]
  intro n hn
  unfold Member.freeNames at hn
  rw [Code.mem_bodyFreeNames] at hn
  refine hsup hk n ?_
  unfold Member.freeNames
  rw [Code.mem_bodyFreeNames]
  refine ⟨hn.1.of_known hfns (h.inScope x hx) ?_, hn.2⟩
  exact fun m hm hmk => mem_known_assume.mpr (hin m hm hmk)

/-- One round: keep what was explored if nothing is rejected, else go on with the rest. -/
theorem settle_round_val (h : RunSpec optimize fns inner run) (hc : ∀ n ∈ c.known, n ∈ fns)
    (hf : ∀ x ∈ run, c.Fresh x.nested) :
    (settle run c).val =
      if (rejects (c.assume run).known run).isEmpty then exploreAll run (c.assume run)
      else (settle (Candidate.spared run (rejects (c.assume run).known run)) c).val := by
  have hf₁ : ∀ x ∈ run, (c.assume run).Fresh x.nested := fun x hx =>
    fresh_assume h (List.Sublist.refl _) hx (hf x hx)
  rw [settle_val_eq, tryAll_val h (assume_known_subset h hc) hf₁]

/-- What is left when a run is settled: it is explored from the assumption that it is known, this
assumption holds for all of it, and it contains every member of the run that belongs to a set of
functions without free names. -/
theorem settle_val (h : RunSpec optimize fns inner run) (hc : ∀ n ∈ c.known, n ∈ fns)
    (hf : ∀ x ∈ run, c.Fresh x.nested) :
    ∃ left : List Candidate, left.Sublist run ∧
      (settle run c).val = exploreAll left (c.assume left) ∧
      (∀ x ∈ left, (x.1.freeNames (c.assume left).known).isEmpty = true) ∧
      ∀ known : NameSet, (∀ n ∈ known, n ∈ fns) → (∀ x ∈ run, x.1.Supported known) →
        (∀ n ∈ inner, n ∈ known → n ∈ c.known ∨ ∃ x ∈ run, x.1.ident = n) →
        ∀ x ∈ run, x.1.ident ∈ known → x ∈ left := by
  induction run using settle.induct with
  | case1 run ih =>
      have hstep := settle_round_val h hc hf
      by_cases hr : (rejects (c.assume run).known run).isEmpty = true
      · rw [if_pos hr] at hstep
        refine ⟨run, List.Sublist.refl _, hstep, ?_, fun _ _ _ _ x hx _ => hx⟩
        intro x hx
        by_contra hne
        rw [Bool.not_eq_true] at hne
        have hin : x.1.ident ∈ rejects (c.assume run).known run :=
          mem_rejects.mpr ⟨x, hx, hne, rfl⟩
        rw [List.isEmpty_iff.mp hr] at hin
        exact List.not_mem_nil hin
      · rw [if_neg hr] at hstep
        have hnames : ∀ n ∈ rejects (c.assume run).known run, n ∈ run.map (·.1.ident) := by
          intro n hn
          obtain ⟨x, hx, -, rfl⟩ := mem_rejects.mp hn
          exact List.mem_map_of_mem hx
        have hshort := (length_spared_lt_iff hnames).mpr fun h => hr (List.isEmpty_iff.mpr h)
        have hmem : ∀ x, x ∈ Candidate.spared run (rejects (c.assume run).known run) ↔
            x ∈ run ∧ x.1.ident ∉ rejects (c.assume run).known run := by
          intro x
          rw [Candidate.spared, List.mem_filter, decide_eq_true_iff]
        have hsub : (Candidate.spared run (rejects (c.assume run).known run)).Sublist run :=
          List.filter_sublist
        obtain ⟨left, hleft, hval, hok, hmax⟩ :=
          ih _ hshort (h.sublist hsub) fun x hx => hf x (hsub.subset hx)
        refine ⟨left, hleft.trans hsub, hstep.trans hval, hok, ?_⟩
        intro known hfns hsup hin
        -- members of a supported set are not rejected, so the set is still in view of the rest
        have hstay : ∀ x ∈ run, x.1.ident ∈ known →
            x ∈ Candidate.spared run (rejects (c.assume run).known run) := by
          intro x hx hk
          refine (hmem x).mpr ⟨hx, fun hrej => ?_⟩
          obtain ⟨y, hy, hne, hi⟩ := mem_rejects.mp hrej
          rw [isEmpty_of_supported h hfns hin hy (hsup y hy) (hi ▸ hk)] at hne
          exact Bool.noConfusion hne
        intro x hx hk
        refine hmax known hfns (fun y hy => hsup y (hsub.subset hy)) ?_ x (hstay x hx hk) hk
        intro n hn hnk
        refine (hin n hn hnk).imp_right ?_
        rintro ⟨y, hy, rfl⟩
        exact ⟨y, hstay y hy hnk, rfl⟩

/-! ## Closing over the rest -/

/-- The state with the captures of a member on record. -/
def capture (c : Classification) (m : Member) : Classification :=
  { c with
    closures := c.closures.insert m.ident ((m.freeNames c.known).erase m.ident).toList }

/-- Making a closure of a member makes progress on that member. -/
theorem capture_progress (h : RunSpec optimize fns inner run) (hc : ∀ n ∈ c.known, n ∈ fns)
    {x : Candidate} (hx : x ∈ run) (hk : x.1.ident ∉ c.known) :
    Progress optimize fns inner [] [x.1] [] [] c (c.capture x.1) where
  keeps := fun _ hn => hn
  adds := fun _ hn => .inl hn
  sound := by simp
  maximal := by simp
  records := by
    intro known hfns hscope _
    have hcap : ((x.1.freeNames c.known).erase x.1.ident).toList = x.1.captures known := by
      rw [← Member.captures_congr hc hfns (h.inScope x hx) (fun n hn => (hscope n hn).symm)
        (h.visible x hx), Member.captures, if_neg hk]
    refine ⟨by simp [capture], ?_, by simp, ?_, by simp, fun _ _ => rfl, by simp, fun _ _ => rfl⟩
    · intro m hm
      rw [List.mem_singleton.mp hm, capture, Table.get?_insert_self, hcap,
        if_neg fun hn => hk ((hscope _ (h.visible x hx)).mp hn)]
    · intro n hn
      have hne := hn x.1 (List.mem_append_left _ List.mem_cons_self)
      exact Table.get?_insert_of_ne _ _ hne.symm

/-- A member that is not known is explored and its captures recorded. -/
theorem explore_capture_progress (h : RunSpec optimize fns inner run)
    (hc : ∀ n ∈ c.known, n ∈ fns) {x : Candidate} (hx : x ∈ run) (hk : x.1.ident ∉ c.known)
    (hf : c.Fresh x.nested) :
    Progress optimize fns inner x.nested [x.1] x.1.body.sites x.1.body.calls c
      ((x.2 c).val.capture x.1) := by
  have hfst := h.explores x hx c hc hf
  have hk₁ : x.1.ident ∉ (x.2 c).val.known := by
    rw [hfst.mem_known_iff]
    · exact hk
    · intro m hm hi
      exact h.hidden x hx m hm (hi ▸ h.visible x hx)
  have hsnd := capture_progress h (hfst.known_subset hc (h.nestedDeclared x hx)) hx hk₁
  have hboth := hfst.trans hsnd (fun m hm m' hm' => by
      rw [recorded, List.map_nil, List.append_nil] at hm'
      exact (h.own x hx).symm m hm m' hm')
    (by simp) (by simp) (fun n hn => .inl hn)
  rw [List.append_nil, List.append_nil, List.append_nil, List.nil_append] at hboth
  exact hboth

/-- All members that are not known are explored and their captures recorded. -/
theorem closeOver_progress (h : RunSpec optimize fns inner run) (hc : ∀ n ∈ c.known, n ∈ fns)
    (hf : ∀ x ∈ run, x.1.ident ∉ c.known → c.Fresh x.nested) {others : List Candidate}
    (ho : others = run.filter (·.1.ident ∉ c.known)) :
    Progress optimize fns inner (others.flatMap (·.nested)) (others.map (·.1))
      (others.flatMap (·.1.body.sites)) (others.flatMap (·.1.body.calls)) c
      (closeOver run c).val := by
  induction run generalizing c others with
  | nil =>
      subst ho
      exact Progress.refl ..
  | cons x rest ih =>
      have hx : x ∈ x :: rest := List.mem_cons_self
      have hsub : ∀ y ∈ rest, y ∈ x :: rest := fun y hy => List.mem_cons_of_mem _ hy
      have hrest := h.sublist (List.sublist_cons_self x rest)
      have happ := (List.pairwise_cons.mp h.apart).1
      rw [List.filter_cons] at ho
      by_cases hk : x.1.ident ∈ c.known
      · rw [if_neg (by simpa using hk)] at ho
        rw [closeOver, if_pos hk]
        exact ih hrest hc (fun y hy => hf y (hsub y hy)) ho
      · rw [if_pos (by simpa using hk)] at ho
        subst ho
        have hfst := explore_capture_progress h hc hx hk (hf x hx hk)
        have hval : (closeOver (x :: rest) c).val =
            (closeOver rest ((x.2 c).val.capture x.1)).val := by
          rw [closeOver, if_neg hk]
          rfl
        rw [hval]
        generalize (x.2 c).val.capture x.1 = c₁ at hfst ⊢
        have hc₁ := hfst.known_subset hc (h.nestedDeclared x hx)
        have hstand : ∀ y ∈ rest, y.1.ident ∈ c₁.known ↔ y.1.ident ∈ c.known := by
          refine fun y hy => hfst.mem_known_iff fun m hm hi => ?_
          exact h.hidden x hx m hm (hi ▸ h.visible y (hsub y hy))
        have hfilter : rest.filter (·.1.ident ∉ c.known) = rest.filter (·.1.ident ∉ c₁.known) :=
          List.filter_congr fun y hy => by simp only [hstand y hy]
        have hin : ∀ {y : Candidate}, y ∈ rest.filter (·.1.ident ∉ c.known) → y ∈ rest := fun hy =>
          (List.mem_filter.mp hy).1
        refine hfst.trans (ih hrest hc₁ ?_ hfilter) ?_ ?_ ?_ ?_
        · intro y hy hky
          refine hfst.fresh hc₁ (hf y (hsub y hy) fun hn => hky ((hstand y hy).mpr hn)) ?_ ?_
          · exact fun m hm m' hm' =>
              (happ y hy m' (List.mem_cons_of_mem _ hm') m (List.mem_cons_of_mem _ hm)).1
          · exact fun m hm m' hm' => (happ y hy m' hm' m (List.mem_cons_of_mem _ hm)).1
        · intro m hm m' hm'
          obtain ⟨y, hy, hm'⟩ := mem_recorded_run.mp hm'
          exact happ y (hin hy) m hm m' hm'
        · intro m hm m' hm'
          obtain ⟨y, hy, hm'⟩ := List.mem_flatMap.mp hm'
          exact (happ y (hin hy) m (List.mem_cons_of_mem _ hm) m'
            (List.mem_cons_of_mem _ hm')).1.symm
        · intro n hn m' hm'
          obtain ⟨y, hy, hm'⟩ := List.mem_flatMap.mp hm'
          rintro rfl
          exact h.hidden y (hsub y (hin hy)) m' hm' hn
        · exact fun n hn => .inl hn

/-! ## The whole run -/

/-- Assuming what is left of a run judges the whole run. -/
theorem assume_progress (h : RunSpec optimize fns inner run) {scope : List Name}
    (hf : c.Fresh (run.map (·.1)))
    (hinner : ∀ n ∈ inner, n ∈ scope ∨ ∃ x ∈ run, x.1.ident = n) {left : List Candidate}
    (hleft : left.Sublist run)
    (hpass : ∀ x ∈ left, (x.1.freeNames (c.assume left).known).isEmpty = true)
    (hmax : optimize = true → ∀ known : NameSet, (∀ n ∈ known, n ∈ fns) →
      (∀ x ∈ run, x.1.Supported known) →
      (∀ n ∈ inner, n ∈ known → n ∈ c.known ∨ ∃ x ∈ run, x.1.ident = n) →
      ∀ x ∈ run, x.1.ident ∈ known → x ∈ left) :
    Progress optimize fns scope (run.map (·.1)) (left.map (·.1)) [] [] c (c.assume left) := by
  have hrun : ∀ x ∈ run, x.1 ∈ run.map (·.1) := fun x hx => List.mem_map_of_mem hx
  refine ⟨?_, ?_, ?_, ?_, ?_⟩
  · exact fun n hn => mem_known_assume.mpr (.inl hn)
  · intro n hn
    rcases mem_known_assume.mp hn with hn | ⟨x, hx, rfl⟩
    · exact .inl hn
    · exact .inr ⟨x.1, hrun x (hleft.subset hx), rfl⟩
  · intro m hm
    obtain ⟨x, hx, rfl⟩ := List.mem_map.mp hm
    intro hk
    rcases mem_known_assume.mp hk with hk | ⟨y, hy, hi⟩
    · exact absurd hk (hf _ hm).1
    · rw [← h.runApart.eq_of_ident_eq (hleft.subset hy) hx hi]
      exact NameSet.isEmpty_iff.mp (hpass y hy)
  · intro known _ _ hknown
    refine ⟨by simp [assume, supposing], ?_, by simp, fun _ _ => rfl, by simp, fun _ _ => rfl, by simp,
      fun _ _ => rfl⟩
    intro m hm
    obtain ⟨x, hx, rfl⟩ := List.mem_map.mp hm
    have hmem := hrun x (hleft.subset hx)
    rw [if_pos ((hknown _ hmem).mpr (mem_known_assume.mpr (.inr ⟨x, hx, rfl⟩)))]
    exact (hf _ hmem).2
  · intro hopt known hfns hsup hscope m hm hk
    obtain ⟨x, hx, rfl⟩ := List.mem_map.mp hm
    refine mem_known_assume.mpr (.inr ⟨x, ?_, rfl⟩)
    refine hmax hopt known hfns (fun x hx => hsup _ (hrun x hx)) ?_ x hx hk
    exact fun n hn hnk => (hinner n hn).imp_left fun hn => hscope n hn hnk

/-- Settling a run judges it, and explores and judges what is nested in what is left of it. -/
theorem settle_progress (h : RunSpec optimize fns inner run) {scope : List Name}
    (hinner : ∀ n ∈ inner, n ∈ scope ∨ ∃ x ∈ run, x.1.ident = n)
    (hscope : ∀ n ∈ scope, n ∈ inner) (hc : ∀ n ∈ c.known, n ∈ fns)
    (hfrun : c.Fresh (run.map (·.1))) (hfnested : ∀ x ∈ run, c.Fresh x.nested)
    {c' : Classification}
    (hc' : c' = (settle (if optimize then run else []) c).val) :
    ∃ left : List Candidate, left.Sublist run ∧
      Progress optimize fns scope (run.map (·.1) ++ left.flatMap (·.nested)) (left.map (·.1))
        (left.flatMap (·.1.body.sites)) (left.flatMap (·.1.body.calls)) c c' ∧
      (∀ x ∈ run, x.1.ident ∈ c'.known ↔ x ∈ left) := by
  obtain ⟨left, hleft, hval, hpass, hmax⟩ : ∃ left : List Candidate, left.Sublist run ∧
      (settle (if optimize then run else []) c).val = exploreAll left (c.assume left) ∧
      (∀ x ∈ left, (x.1.freeNames (c.assume left).known).isEmpty = true) ∧
      (optimize = true → ∀ known : NameSet, (∀ n ∈ known, n ∈ fns) →
        (∀ x ∈ run, x.1.Supported known) →
        (∀ n ∈ inner, n ∈ known → n ∈ c.known ∨ ∃ x ∈ run, x.1.ident = n) →
        ∀ x ∈ run, x.1.ident ∈ known → x ∈ left) := by
    cases optimize with
    | true =>
        obtain ⟨left, h₁, h₂, h₃, h₄⟩ := settle_val h hc hfnested
        exact ⟨left, h₁, h₂, h₃, fun _ => h₄⟩
    | false =>
        refine ⟨[], List.nil_sublist _, ?_, by simp, by simp⟩
        exact congrArg Traced.val (settle_nil c)
  rw [hval] at hc'
  subst hc'
  have hpart := h.sublist hleft
  have hassume := assume_progress h hfrun hinner hleft hpass hmax
  have hc₁ := assume_known_subset hpart hc
  have hf₁ : ∀ x ∈ left, (c.assume left).Fresh x.nested := fun x hx =>
    fresh_assume hpart (List.Sublist.refl _) hx (hfnested x (hleft.subset hx))
  refine ⟨left, hleft, ?_, ?_⟩
  · have hboth := hassume.trans (exploreAll_progress hpart hc₁ hf₁) ?_ ?_ ?_ ?_
    · rw [List.append_nil, List.nil_append, List.nil_append] at hboth
      exact hboth
    · intro m hm m' hm'
      rw [recorded, List.map_nil, List.append_nil] at hm
      obtain ⟨x, hx, rfl⟩ := List.mem_map.mp hm
      obtain ⟨y, hy, hm'⟩ := (mem_recorded_flatMap.mp hm').resolve_left List.not_mem_nil
      exact hpart.runApart.apart_nested hx hy _ List.mem_cons_self m' hm'
    · intro m hm m' hm'
      obtain ⟨x, hx, rfl⟩ := List.mem_map.mp hm
      obtain ⟨y, hy, hm'⟩ := List.mem_flatMap.mp hm'
      exact (h.runApart.apart_nested hx (hleft.subset hy) _ List.mem_cons_self m' hm').1.symm
    · intro n hn m' hm'
      obtain ⟨y, hy, hm'⟩ := List.mem_flatMap.mp hm'
      rintro rfl
      exact hpart.hidden y hy m' hm' (hscope _ hn)
    · intro n hn
      refine (hinner n hn).imp_right ?_
      rintro ⟨x, hx, rfl⟩
      exact ⟨x.1, List.mem_map_of_mem hx, rfl⟩
  · intro x hx
    rw [mem_known_exploreAll hpart hc₁ hf₁ (h.visible x hx), mem_known_assume]
    constructor
    · rintro (hk | ⟨y, hy, hi⟩)
      · exact absurd hk (hfrun x.1 (List.mem_map_of_mem hx)).1
      · rwa [← h.runApart.eq_of_ident_eq (hleft.subset hy) hx hi]
    · exact fun hl => .inr ⟨x, hl, rfl⟩

/-- Classifying a run judges it and everything nested in it. -/
theorem classifyRun_explores (h : RunSpec optimize fns inner run) {scope : List Name}
    (hinner : ∀ n ∈ inner, n ∈ scope ∨ ∃ x ∈ run, x.1.ident = n)
    (hscope : ∀ n ∈ scope, n ∈ inner) :
    Explores optimize fns scope (run.map (·.1) ++ run.flatMap (·.nested)) (run.map (·.1))
      (run.flatMap (·.1.body.sites)) (run.flatMap (·.1.body.calls)) (classifyRun optimize run) := by
  intro c hc hf
  have hfnested : ∀ x ∈ run, c.Fresh x.nested := fun x hx m hm =>
    hf m (List.mem_append_right _ (List.mem_flatMap.mpr ⟨x, hx, hm⟩))
  have hval : (classifyRun optimize run c).val =
      (closeOver run (settle (if optimize then run else []) c).val).val := rfl
  rw [hval]
  generalize hc₁ : (settle (if optimize then run else []) c).val = c₁
  obtain ⟨left, hleft, hfst, hknown⟩ := settle_progress h hinner hscope hc
    (fun m hm => hf m (List.mem_append_left _ hm)) hfnested hc₁.symm
  have hsub₁ := hfst.known_subset hc fun m hm => by
    rcases List.mem_append.mp hm with hm | hm
    · obtain ⟨x, hx, rfl⟩ := List.mem_map.mp hm
      exact h.declared x hx
    · obtain ⟨x, hx, hm⟩ := List.mem_flatMap.mp hm
      exact h.nestedDeclared x (hleft.subset hx) m hm
  generalize ho : run.filter (·.1.ident ∉ c₁.known) = others
  have hothers : ∀ x, x ∈ others ↔ x ∈ run ∧ x ∉ left := by
    intro x
    rw [← ho, List.mem_filter, decide_eq_true_iff]
    exact and_congr_right fun hx => not_congr (hknown x hx)
  have hne : ∀ {x y : Candidate}, x ∈ left → y ∈ others → x ≠ y := by
    rintro x y hx hy rfl
    exact ((hothers x).mp hy).2 hx
  have hsplit : ∀ x, x ∈ run ↔ x ∈ left ∨ x ∈ others := by
    intro x
    rw [hothers]
    have := @hleft.subset _ _ _ x
    tauto
  have hin : ∀ {y : Candidate}, y ∈ others → y ∈ run := fun hy => ((hothers _).mp hy).1
  have happ : ∀ {x y : Candidate}, x ∈ left → y ∈ others →
      Apart (x.1 :: x.nested) (y.1 :: y.nested) := fun hx hy =>
    h.runApart.apart_of_ne (hleft.subset hx) (hin hy) (hne hx hy)
  have hsnd := closeOver_progress h hsub₁ (fun x hx hk => ?_) ho.symm
  · have hboth := hfst.trans hsnd ?_ ?_ ?_ ?_
    · refine hboth.congr ?_ ?_ ?_ ?_
      · intro m
        simp only [List.mem_append, List.mem_flatMap, hsplit, or_and_right, exists_or, or_assoc]
      · intro m
        simp only [List.mem_append, List.mem_map, hsplit, or_and_right, exists_or]
      · intro s
        simp only [List.mem_append, List.mem_flatMap, hsplit, or_and_right, exists_or]
      · intro x
        simp only [List.mem_append, List.mem_flatMap, hsplit, or_and_right, exists_or]
    · intro m hm m' hm'
      obtain ⟨x, hx, hm⟩ := mem_recorded_run.mp hm
      obtain ⟨y, hy, hm'⟩ := mem_recorded_run.mp hm'
      exact happ hx hy m hm m' hm'
    · intro m hm m' hm'
      obtain ⟨y, hy, hm'⟩ := List.mem_flatMap.mp hm'
      rcases List.mem_append.mp hm with hm | hm
      · obtain ⟨x, hx, rfl⟩ := List.mem_map.mp hm
        exact (h.runApart.apart_nested hx (hin hy) _ List.mem_cons_self m' hm').1.symm
      · obtain ⟨x, hx, hm⟩ := List.mem_flatMap.mp hm
        exact (happ hx hy m (List.mem_cons_of_mem _ hm) m' (List.mem_cons_of_mem _ hm')).1.symm
    · intro n hn m' hm'
      obtain ⟨y, hy, hm'⟩ := List.mem_flatMap.mp hm'
      rintro rfl
      exact h.hidden y (hin hy) m' hm' (hscope _ hn)
    · intro n hn
      refine (hinner n hn).imp_right ?_
      rintro ⟨x, hx, rfl⟩
      exact ⟨x.1, List.mem_append_left _ (List.mem_map_of_mem hx), rfl⟩
  · have hxo : x ∈ others := (hothers x).mpr ⟨hx, fun hl => hk ((hknown x hx).mpr hl)⟩
    refine hfst.fresh hsub₁ (hfnested x hx) ?_ ?_
    · intro m hm m' hm'
      rcases List.mem_append.mp hm' with hm' | hm'
      · obtain ⟨y, hy, rfl⟩ := List.mem_map.mp hm'
        exact (h.runApart.apart_nested hy hx _ List.mem_cons_self m hm).1
      · obtain ⟨y, hy, hm'⟩ := List.mem_flatMap.mp hm'
        exact (happ hy hxo m' (List.mem_cons_of_mem _ hm') m (List.mem_cons_of_mem _ hm)).1
    · intro m hm m' hm'
      obtain ⟨y, hy, hm'⟩ := mem_recorded_run.mp hm'
      exact (happ hy hxo m' hm' m (List.mem_cons_of_mem _ hm)).1

end Classification

end ClosureConversion
