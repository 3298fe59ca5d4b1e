import ClosureConversion.Proofs.Arena.Unfolding
import ClosureConversion.Proofs.Exploration.Bookkeeping

/-!
# Exploring an arena is exploring its code

The exploration of an arena enters bodies, keeps a stack of them and walks blocks in search of free
names, and each of these may fail. The exploration of code has none of this. Both take the same steps:

* Where the block unfolds, the explorer follows the exploration of the code (`Explorer.Follows`): it
  comes to the same state with the same events, and leaves its stack as it was. In particular every
  walk on the way comes to an end, although walks are not guarded: a body is walked only when it has
  been explored.
* Where the block does not unfold, the explorer fails with the fault of unfolding (`Explorer.Fails`).
  Bodies are unfolded in the order of their literals, and explored in that order too, since the first
  round of a run tries all its members. Without the optimisation there are no rounds, but then no
  function is known and all members are closed over.

Both statements are proved for one chain from the blocks nested in it (`Arena.Opens`), and for blocks
by induction on the fuel (`Arena.exploreBlock_agrees`). They add up to `Arena.classifyTraced_eq`.
-/

namespace ClosureConversion

/-! ## Explorers that follow, explorers that fail -/

namespace Explorer

variable {α β : Type} {active : List (Name × BlockId)}

/-- Inside the bodies `active`, an explorer does what a step without failure does, and leaves the stack
as it was. -/
def Follows (active : List (Name × BlockId)) (x : Explorer α) (t : Traced α) : Prop :=
  ∀ events, x ⟨active, events⟩ = .ok (t.val, ⟨active, t.events.reverse ++ events⟩)

/-- Inside the bodies `active`, an explorer fails. -/
def Fails (active : List (Name × BlockId)) (x : Explorer α) (e : Fault) : Prop :=
  ∀ events, x ⟨active, events⟩ = .error e

namespace Follows

/-- Nothing done. -/
protected theorem pure (v : α) : Follows active (pure v : Explorer α) (pure v) := fun _ => rfl

/-- A step that enters no body. -/
theorem lift (t : Traced α) : Follows active (Explorer.lift t) t := fun _ => rfl

/-- Steps one after the other. -/
theorem bind {x : Explorer α} {t : Traced α} {f : α → Explorer β} {g : α → Traced β}
    (h : Follows active x t) (hf : Follows active (f t.val) (g t.val)) :
    Follows active (x >>= f) (t >>= g) := by
  intro events
  show (x ⟨active, events⟩ >>= fun r => f r.1 r.2) = _
  rw [h events]
  refine (hf _).trans ?_
  rw [← List.append_assoc, ← List.reverse_append]
  rfl

/-- A computation that knows of no stack, before a step. -/
theorem bind_ok {x : Except Fault α} {v : α} {f : α → Explorer β} {t : Traced β} (h : x = .ok v)
    (hf : Follows active (f v) t) : Follows active ((liftM x : Explorer α) >>= f) t := by
  subst h
  exact hf

/-- The check that no body is being explored any more, before a step. -/
theorem bind_finish {f : Unit → Explorer β} {t : Traced β} (hf : Follows [] (f ()) t) :
    Follows [] (finish >>= f) t := fun events => hf events

/-- Steps that depend on the same condition. -/
theorem ite {p : Prop} [Decidable p] {x y : Explorer α} {t u : Traced α}
    (h : p → Follows active x t) (h' : ¬p → Follows active y u) :
    Follows active (if p then x else y) (if p then t else u) := by
  by_cases hp : p
  · rw [if_pos hp, if_pos hp]
    exact h hp
  · rw [if_neg hp, if_neg hp]
    exact h' hp

/-- A body is explored with itself on the stack. -/
theorem within {x : Explorer α} {t : Traced α} {ident : Name} {blk : BlockId}
    (hblk : blk ∉ active.map (·.2)) (h : Follows ((ident, blk) :: active) x t) :
    Follows active (Explorer.within ident blk x) t := by
  intro events
  rw [within_apply, if_neg hblk, h events]
  rfl

end Follows

namespace Fails

variable {e : Fault}

/-- What fails at once. -/
theorem bind {x : Explorer α} (h : Fails active x e) (f : α → Explorer β) :
    Fails active (x >>= f) e := by
  intro events
  show (x ⟨active, events⟩ >>= fun r => f r.1 r.2) = _
  rw [h events]
  rfl

/-- What fails later. -/
theorem after {x : Explorer α} {t : Traced α} {f : α → Explorer β} (h : Follows active x t)
    (hf : Fails active (f t.val) e) : Fails active (x >>= f) e := by
  intro events
  show (x ⟨active, events⟩ >>= fun r => f r.1 r.2) = _
  rw [h events]
  exact hf _

/-- What fails behind a computation that knows of no stack. -/
theorem after_ok {x : Except Fault α} {v : α} {f : α → Explorer β} (h : x = .ok v)
    (hf : Fails active (f v) e) : Fails active ((liftM x : Explorer α) >>= f) e := by
  subst h
  exact hf

/-- A body that is on the stack is not entered. -/
theorem within_of_mem {ident : Name} {blk : BlockId} (hblk : blk ∈ active.map (·.2))
    (x : Explorer α) : Fails active (Explorer.within ident blk x) (.cyclicBody ident blk) := by
  intro events
  rw [within_apply, if_pos hblk]

/-- The fault of a body is that of the literal. -/
theorem within {x : Explorer α} {ident : Name} {blk : BlockId} (hblk : blk ∉ active.map (·.2))
    (h : Fails ((ident, blk) :: active) x e) : Fails active (Explorer.within ident blk x) e := by
  intro events
  rw [within_apply, if_neg hblk, h events]
  rfl

end Fails

end Explorer

open Explorer (Follows Fails)

namespace Arena

variable {a : Arena} {enter : BlockId → Classification → Explorer Classification}
  {active : List (Name × BlockId)} {optimize : Bool}

/-! ## Runs -/

/-- A literal is explored as a candidate is: its body is explored in the same way, and the walk of its
body ends with the same names. -/
structure Pursues (a : Arena) (enter : BlockId → Classification → Explorer Classification)
    (active : List (Name × BlockId)) (m : Literal) (x : Candidate) : Prop where
  literal : m = x.1.inArena
  explore : ∀ c, Follows active (Explorer.within m.ident m.blk (enter m.blk c)) (x.2 c)
  free : ∀ known, a.functionFreeNames known m.params m.blk = .ok (x.1.freeNames known)

section Runs

variable {ms : List Literal} {run : List Candidate}

/-- Candidates are tried in the same way. -/
theorem tryAll_follows (h : List.Forall₂ (Pursues a enter active) ms run) (c : Classification) :
    Follows active (a.tryAll enter ms c) (Classification.tryAll run c) := by
  induction h generalizing c with
  | nil => exact .pure _
  | @cons m x ms run hx _ ih =>
      obtain ⟨mem, explore⟩ := x
      obtain rfl : m = mem.inArena := hx.literal
      refine (Follows.lift _).bind ((hx.explore c).bind (.bind_ok (hx.free _) ?_))
      refine .ite (fun _ => ih _) fun _ => ?_
      exact (Follows.lift _).bind ((ih _).bind (.pure _))

/-- The names of literals are those of the candidates. -/
theorem map_ident_eq (h : List.Forall₂ (Pursues a enter active) ms run) :
    ms.map (·.ident) = run.map (·.1.ident) := by
  induction h with
  | nil => rfl
  | @cons m x ms run hx _ ih =>
      rw [List.map_cons, List.map_cons, ih, hx.literal]
      rfl

/-- The same candidates are spared. -/
theorem spared_pursues (h : List.Forall₂ (Pursues a enter active) ms run) (rejected : List Name) :
    List.Forall₂ (Pursues a enter active) (spared ms rejected) (Candidate.spared run rejected) := by
  refine List.rel_filter (fun {m x} hx => ?_) h
  rw [hx.literal]
  exact Iff.rfl

/-- A run is settled in the same way, round by round. -/
theorem settle_follows (h : List.Forall₂ (Pursues a enter active) ms run) (c : Classification) :
    Follows active (a.settle enter ms c) (Classification.settle run c) := by
  induction ms using settle.induct generalizing run with
  | case1 ms ih =>
      have hnames : c.supposing (ms.map (·.ident)) = c.assume run :=
        congrArg c.supposing (map_ident_eq h)
      rw [settle, Classification.settle, hnames]
      refine (tryAll_follows h _).bind ?_
      generalize (Classification.tryAll run (c.assume run)).val = round
      obtain ⟨explored, rejected⟩ := round
      have hspared := spared_pursues h rejected
      simp only [← hspared.length_eq, ← h.length_eq]
      exact .ite (fun hless => ih rejected hless hspared) fun _ => .pure explored

/-- Closures are made in the same way. -/
theorem closeOver_follows (h : List.Forall₂ (Pursues a enter active) ms run) (c : Classification) :
    Follows active (a.closeOver enter ms c) (Classification.closeOver run c) := by
  induction h generalizing c with
  | nil => exact .pure _
  | @cons m x ms run hx _ ih =>
      obtain ⟨mem, explore⟩ := x
      obtain rfl : m = mem.inArena := hx.literal
      refine .ite (fun _ => ih c) fun _ => ?_
      exact (hx.explore c).bind (.bind_ok (hx.free _) ((Follows.lift _).bind (ih _)))

/-- A run is classified in the same way. -/
theorem classifyRun_follows (h : List.Forall₂ (Pursues a enter active) ms run)
    (c : Classification) : Follows active (a.classifyRun enter optimize ms c)
      (Classification.classifyRun optimize run c) := by
  cases optimize with
  | true => exact (settle_follows h c).bind (closeOver_follows h _)
  | false => exact (settle_follows .nil c).bind (closeOver_follows h _)

/-- A round fails with the first member whose body cannot be explored. -/
theorem tryAll_fails (h : List.Forall₂ (Pursues a enter active) ms run) {m : Literal} {e : Fault}
    (hm : ∀ c, Fails active (Explorer.within m.ident m.blk (enter m.blk c)) e)
    (post : List Literal) (c : Classification) :
    Fails active (a.tryAll enter (ms ++ m :: post) c) e := by
  induction h generalizing c with
  | nil => exact .after (.lift _) ((hm c).bind _)
  | @cons m' x ms run hx _ ih =>
      refine .after (.lift _) (.after (hx.explore c) (.after_ok (hx.free _) ?_))
      split
      · exact ih _
      · exact .after (.lift _) ((ih _).bind _)

/-- Making closures fails with the first member whose body cannot be explored, as long as no function
is known. -/
theorem closeOver_fails (h : List.Forall₂ (Pursues a enter active) ms run)
    (hkeeps : ∀ x ∈ run, KeepsKnown x.2) {m : Literal} {e : Fault}
    (hm : ∀ c, c.known = ∅ → Fails active (Explorer.within m.ident m.blk (enter m.blk c)) e)
    (post : List Literal) {c : Classification} (hc : c.known = ∅) :
    Fails active (a.closeOver enter (ms ++ m :: post) c) e := by
  have hunknown : ∀ n, n ∉ c.known := fun n => hc ▸ NameSet.not_mem_empty n
  induction h generalizing c with
  | nil =>
      simp only [List.nil_append, closeOver, if_neg (hunknown _)]
      exact (hm c hc).bind _
  | @cons m' x ms run hx _ ih =>
      simp only [List.cons_append, closeOver, if_neg (hunknown _)]
      refine .after (hx.explore c) (.after_ok (hx.free _) (.after (.lift _) ?_))
      have hknown : ((x.2 c).val).known = ∅ := (hkeeps x List.mem_cons_self c).trans hc
      refine ih (fun y hy => hkeeps y (List.mem_cons_of_mem _ hy)) hknown fun n => ?_
      exact hknown ▸ NameSet.not_mem_empty n

/-- Without the optimisation no function is known. -/
def Steady (optimize : Bool) (c : Classification) : Prop := optimize = false → c.known = ∅

/-- The classification of a run fails with the first member whose body cannot be explored. -/
theorem classifyRun_fails (h : List.Forall₂ (Pursues a enter active) ms run)
    (hkeeps : optimize = false → ∀ x ∈ run, KeepsKnown x.2) {m : Literal} {e : Fault}
    (hm : ∀ c, Steady optimize c → Fails active (Explorer.within m.ident m.blk (enter m.blk c)) e)
    (post : List Literal) {c : Classification} (hc : Steady optimize c) :
    Fails active (a.classifyRun enter optimize (ms ++ m :: post) c) e := by
  cases optimize with
  | true =>
      have hround := tryAll_fails h (fun c => hm c fun h => nomatch h) post
      refine Fails.bind ?_ _
      rw [if_pos rfl, settle]
      exact (hround _).bind _
  | false =>
      refine .after (settle_follows .nil c) ?_
      rw [Classification.settle_nil]
      exact closeOver_fails h (hkeeps rfl) (fun c hc => hm c fun _ => hc) post (hc rfl)

end Runs

/-! ## Chains -/

/-- What the exploration of the blocks nested in a chain does, given how they unfold. -/
structure Opens (a : Arena) (optimize : Bool)
    (enter : BlockId → Classification → Explorer Classification) (active : List (Name × BlockId))
    (body : Name → BlockId → Except Fault Code) (branch : BlockId → Except Fault Code) : Prop where
  code : ∀ {ident blk inner}, body ident blk = .ok inner → a.code blk = .ok inner
  bodies : ∀ {ident blk inner}, body ident blk = .ok inner → ∀ c,
    Follows active (Explorer.within ident blk (enter blk c))
      ((inner.plan optimize).exploreBlock optimize inner c)
  branches : ∀ {blk inner}, branch blk = .ok inner → ∀ c,
    Follows active (enter blk c) ((inner.plan optimize).exploreBlock optimize inner c)
  bodies_fail : ∀ {ident blk e}, body ident blk = .error e → ∀ c, Steady optimize c →
    Fails active (Explorer.within ident blk (enter blk c)) e
  branches_fail : ∀ {blk e}, branch blk = .error e → ∀ c, Steady optimize c →
    Fails active (enter blk c) e

section Chains

variable {body : Name → BlockId → Except Fault Code} {branch : BlockId → Except Fault Code}
  {l : List (RecordId × Record)} {code : Code}

/-- A literal whose body unfolds is explored as the member of a run is. -/
theorem Opens.pursues (h : Opens a optimize enter active body branch) {m : Member}
    (hm : body m.ident m.blk = .ok m.body) : Pursues a enter active m.inArena
      (m, (m.body.plan optimize).exploreBlock optimize m.body) :=
  ⟨rfl, h.bodies hm, fun _ => functionFreeNames_eq (h.code hm)⟩

/-- The run that a chain begins with is the run that its code begins with. -/
theorem Opens.leading_pursues (h : Opens a optimize enter active body branch)
    (hl : Code.assemble body branch l = .ok code) :
    List.Forall₂ (Pursues a enter active) (leading l) (code.plan optimize).run := by
  induction l generalizing code with
  | nil =>
      cases hl
      exact .nil
  | cons x rest ih =>
      obtain ⟨id, ident, rhs, prev, next⟩ := x
      cases rhs with
      | op o =>
          obtain ⟨tail, -, hcode⟩ := bind_eq_ok hl
          cases hcode
          exact .nil
      | fn params blk =>
          obtain ⟨inner, hinner, hl⟩ := bind_eq_ok hl
          obtain ⟨tail, htail, hcode⟩ := bind_eq_ok hl
          cases hcode
          exact .cons (h.pursues (m := ⟨id, ident, params, blk, inner, tail⟩) hinner) (ih htail)
      | branch cond yes no =>
          obtain ⟨_, -, hl⟩ := bind_eq_ok hl
          obtain ⟨_, -, hl⟩ := bind_eq_ok hl
          obtain ⟨_, -, hcode⟩ := bind_eq_ok hl
          cases hcode
          exact .nil

/-- A chain is explored as its code is. Inside a run, which is classified already, this is what follows
the run. -/
theorem Opens.exploreChain_follows (h : Opens a optimize enter active body branch)
    (hl : Code.assemble body branch l = .ok code) (c : Classification) :
    Follows active (a.exploreChain optimize enter false l c)
        ((code.plan optimize).explore optimize c) ∧
      Follows active (a.exploreChain optimize enter true l c) ((code.plan optimize).after c) := by
  induction l generalizing code c with
  | nil =>
      cases hl
      rw [Plan.explore_of_run_eq_nil rfl]
      exact ⟨.pure c, .pure c⟩
  | cons x rest ih =>
      obtain ⟨id, ident, rhs, prev, next⟩ := x
      cases rhs with
      | op o =>
          obtain ⟨tail, htail, hcode⟩ := bind_eq_ok hl
          cases hcode
          rw [Plan.explore_of_run_eq_nil rfl]
          have hstep := Follows.bind (.lift (c.visit id ident o)) (ih htail _).1
          exact ⟨hstep, hstep⟩
      | fn params blk =>
          have hrun := h.leading_pursues hl
          obtain ⟨inner, hinner, hl⟩ := bind_eq_ok hl
          obtain ⟨tail, htail, hcode⟩ := bind_eq_ok hl
          cases hcode
          exact ⟨(classifyRun_follows hrun c).bind (ih htail _).2, (ih htail c).2⟩
      | branch cond yes no =>
          obtain ⟨y, hy, hl⟩ := bind_eq_ok hl
          obtain ⟨n, hn, hl⟩ := bind_eq_ok hl
          obtain ⟨tail, htail, hcode⟩ := bind_eq_ok hl
          cases hcode
          rw [Plan.explore_of_run_eq_nil rfl]
          have hstep : Follows active (a.exploreChain optimize enter false
              ((id, ⟨ident, .branch cond yes no, prev, next⟩) :: rest) c)
              (((Code.branch id ident cond yes no y n tail).plan optimize).after c) :=
            (h.branches hy c).bind ((h.branches hn _).bind (ih htail _).1)
          exact ⟨hstep, hstep⟩

/-- Literals whose bodies unfold are explored as the members of some run are, also if what follows
them does not unfold. -/
theorem Opens.exists_pursues (h : Opens a optimize enter active body branch) {ms : List Literal}
    (hms : ∀ m ∈ ms, ∃ inner, body m.ident m.blk = .ok inner) :
    ∃ run, List.Forall₂ (Pursues a enter active) ms run ∧
      (optimize = false → ∀ x ∈ run, KeepsKnown x.2) := by
  induction ms with
  | nil => exact ⟨[], .nil, fun _ _ hx => absurd hx List.not_mem_nil⟩
  | cons m ms ih =>
      obtain ⟨inner, hinner⟩ := hms m List.mem_cons_self
      obtain ⟨run, hrun, hkeeps⟩ := ih fun m' hm' => hms m' (List.mem_cons_of_mem _ hm')
      -- what stands behind a literal does not matter for its classification
      refine ⟨_ :: run, .cons (h.pursues (m := ⟨m.id, m.ident, m.params, m.blk, inner, .done⟩) hinner)
        hrun, ?_⟩
      rintro rfl x hx
      rcases List.mem_cons.mp hx with rfl | hx
      · exact (Code.planKeeps inner).exploreBlock inner
      · exact hkeeps rfl x hx

/-- Where a chain does not unfold, either the body of a literal of its first run is the first that does
not, or all of them do. -/
theorem leading_cases {e : Fault} (hl : Code.assemble body branch l = .error e) :
    (∃ pre m post, leading l = pre ++ m :: post ∧ body m.ident m.blk = .error e ∧
        ∀ m ∈ pre, ∃ inner, body m.ident m.blk = .ok inner) ∨
      ∀ m ∈ leading l, ∃ inner, body m.ident m.blk = .ok inner := by
  induction l with
  | nil => cases hl
  | cons x rest ih =>
      obtain ⟨id, ident, rhs, prev, next⟩ := x
      cases rhs with
      | op o => exact .inr fun _ hm => absurd hm List.not_mem_nil
      | branch cond yes no => exact .inr fun _ hm => absurd hm List.not_mem_nil
      | fn params blk =>
          rcases bind_eq_error hl with he | ⟨inner, hinner, hl⟩
          · exact .inl ⟨[], _, _, rfl, he, fun _ hm => absurd hm List.not_mem_nil⟩
          rcases bind_eq_error hl with hl | ⟨_, -, hl⟩
          · rcases ih hl with ⟨pre, m, post, hsplit, he, hpre⟩ | hall
            · refine .inl ⟨_ :: pre, m, post, congrArg _ hsplit, he, fun m' hm' => ?_⟩
              rcases List.mem_cons.mp hm' with rfl | hm'
              · exact ⟨inner, hinner⟩
              · exact hpre m' hm'
            · refine .inr fun m' hm' => ?_
              rcases List.mem_cons.mp hm' with rfl | hm'
              · exact ⟨inner, hinner⟩
              · exact hall m' hm'
          · cases hl

/-- Exploring code whose blocks are steady leaves the state steady. -/
theorem Steady.exploreBlock {c : Classification} (hc : Steady optimize c) (inner : Code) :
    Steady optimize ((inner.plan optimize).exploreBlock optimize inner c).val := by
  rintro rfl
  exact ((Code.planKeeps inner).exploreBlock inner c).trans (hc rfl)

/-- Where a chain does not unfold, its exploration fails with the same fault. Inside a run, which is
classified already, the bodies of the run have been explored. -/
theorem Opens.exploreChain_fails (h : Opens a optimize enter active body branch) {e : Fault}
    (hl : Code.assemble body branch l = .error e) {c : Classification} (hc : Steady optimize c) :
    Fails active (a.exploreChain optimize enter false l c) e ∧
      ((∀ m ∈ leading l, ∃ inner, body m.ident m.blk = .ok inner) →
        Fails active (a.exploreChain optimize enter true l c) e) := by
  induction l generalizing c with
  | nil => cases hl
  | cons x rest ih =>
      obtain ⟨id, ident, rhs, prev, next⟩ := x
      cases rhs with
      | op o =>
          rcases bind_eq_error hl with hl | ⟨_, -, hl⟩
          · have hvisit : Steady optimize (c.visit id ident o).val := fun ho =>
              (Classification.keepsKnown_visit id ident o c).trans (hc ho)
            have hstep := Fails.after (.lift _) (ih hl hvisit).1
            exact ⟨hstep, fun _ => hstep⟩
          · cases hl
      | fn params blk =>
          have hcases := leading_cases hl
          -- behind a run whose bodies all unfold, the fault stands in what follows
          have hinside : (∀ m ∈ leading ((id, ⟨ident, .fn params blk, prev, next⟩) :: rest),
              ∃ inner, body m.ident m.blk = .ok inner) → ∀ {c}, Steady optimize c →
              Fails active (a.exploreChain optimize enter true rest c) e := by
            intro hall c hc
            rcases bind_eq_error hl with he | ⟨inner, -, hl⟩
            · obtain ⟨inner, hinner⟩ := hall _ List.mem_cons_self
              cases hinner.symm.trans he
            rcases bind_eq_error hl with hl | ⟨_, -, hl⟩
            · exact (ih hl hc).2 fun m hm => hall m (List.mem_cons_of_mem _ hm)
            · cases hl
          refine ⟨?_, fun hall => hinside hall hc⟩
          rcases hcases with ⟨pre, m, post, hsplit, he, hpre⟩ | hall
          · obtain ⟨run, hrun, hkeeps⟩ := h.exists_pursues hpre
            have hfails := classifyRun_fails hrun hkeeps (h.bodies_fail he) post hc
            rw [← hsplit] at hfails
            exact hfails.bind _
          · obtain ⟨run, hrun, hkeeps⟩ := h.exists_pursues hall
            refine .after (classifyRun_follows hrun c) (hinside hall ?_)
            -- without the optimisation the run is closed over, and no function becomes known
            rintro rfl
            rw [Classification.classifyRun_false]
            exact (Classification.keepsKnown_closeOver (hkeeps rfl) c).trans (hc rfl)
      | branch cond yes no =>
          have hstep : Fails active (a.exploreChain optimize enter false
              ((id, ⟨ident, .branch cond yes no, prev, next⟩) :: rest) c) e := by
            rcases bind_eq_error hl with he | ⟨y, hy, hl⟩
            · exact (h.branches_fail he c hc).bind _
            have hc' := hc.exploreBlock y
            refine .after (h.branches hy c) ?_
            rcases bind_eq_error hl with he | ⟨n, hn, hl⟩
            · exact (h.branches_fail he _ hc').bind _
            refine .after (h.branches hn _) ?_
            rcases bind_eq_error hl with hl | ⟨_, -, hl⟩
            · exact (ih hl (hc'.exploreBlock n)).1
            · cases hl
          exact ⟨hstep, fun _ => hstep⟩

end Chains

/-! ## Deciding the literals of a block -/

section Deciding

variable {fuel : Nat} {bodies : List BlockId} {blk : BlockId}

/-- A body that unfolds inside other bodies unfolds on its own. -/
theorem code_of_enterBody {ident : Name} {inner : Code} (hf : fuel ≤ a.depthBound)
    (h : Code.enterBody (a.unfold fuel) bodies ident blk = .ok inner) : a.code blk = .ok inner := by
  unfold Code.enterBody at h
  split at h
  · cases h
  · exact unfold_mono h hf (List.nil_subset _)

/-- What is needed behind a literal is found by walks that end. -/
theorem suffixNames_eq {known : NameSet} {earlier : List Member} {m : Member}
    {behind : List (RecordId × Record)}
    (hbehind : a.chainFreeNames known behind = .ok (m.rest.freeNames known))
    (hearlier : ∀ e ∈ earlier, a.code e.blk = .ok e.body) :
    a.suffixNames known (earlier.map (·.inArena)) m.ident behind =
      .ok (Classification.suffixNames known earlier m) := by
  have hfold : ∀ free : NameSet, (earlier.map (·.inArena)).foldlM (fun names e => do
      let needed ← a.functionFreeNames known e.params e.blk
      return if m.ident ∈ needed then names.insert m.ident else names) free =
      .ok (if earlier.any (fun e => m.ident ∈ e.freeNames known) then free.insert m.ident
        else free) := by
    induction earlier with
    | nil => exact fun _ => rfl
    | cons e earlier ih =>
        intro free
        have he : a.functionFreeNames known e.params e.blk = .ok (e.freeNames known) :=
          functionFreeNames_eq (hearlier e List.mem_cons_self)
        have hrest := ih fun e' he' => hearlier e' (List.mem_cons_of_mem _ he')
        simp only [List.map_cons, List.foldlM_cons, Member.inArena, he, List.any_cons] at hrest ⊢
        refine (hrest _).trans ?_
        by_cases hneeds : m.ident ∈ e.freeNames known
        · -- a later member that needs the name, too, finds it added
          have hmem : m.ident ∈ free.insert m.ident := NameSet.mem_insert.mpr (.inr rfl)
          simp [hneeds, NameSet.insert_of_mem hmem]
        · simp [hneeds]
  simp only [suffixNames, hbehind]
  exact hfold _

/-- The literals of a chain are decided as those of its code. -/
theorem decideAll_follows (hf : fuel ≤ a.depthBound) {l : List (RecordId × Record)} {code : Code}
    (hl : Code.assemble (Code.enterBody (a.unfold fuel) bodies) (a.unfold fuel bodies) l = .ok code)
    {earlier : List Member} (hearlier : ∀ e ∈ earlier, a.code e.blk = .ok e.body)
    (c : Classification) : Follows active (a.decideAll (earlier.map (·.inArena)) l c)
      (Classification.decideAll earlier code c) := by
  induction l generalizing code earlier c with
  | nil =>
      cases hl
      exact .pure c
  | cons x rest ih =>
      obtain ⟨id, ident, rhs, prev, next⟩ := x
      cases rhs with
      | op o =>
          obtain ⟨tail, htail, hcode⟩ := bind_eq_ok hl
          cases hcode
          exact ih htail (fun _ he => absurd he List.not_mem_nil) c
      | branch cond yes no =>
          obtain ⟨y, hy, hl⟩ := bind_eq_ok hl
          obtain ⟨n, hn, hl⟩ := bind_eq_ok hl
          obtain ⟨tail, htail, hcode⟩ := bind_eq_ok hl
          cases hcode
          exact ih htail (fun _ he => absurd he List.not_mem_nil) c
      | fn params blk =>
          obtain ⟨inner, hinner, hl⟩ := bind_eq_ok hl
          obtain ⟨tail, htail, hcode⟩ := bind_eq_ok hl
          cases hcode
          let m : Member := ⟨id, ident, params, blk, inner, tail⟩
          -- the walk behind the literal starts with all the fuel there is
          have hunfold : Code.assemble (Code.enterBody (a.unfold a.depthBound) bodies)
              (a.unfold a.depthBound bodies) rest = .ok m.rest := by
            refine Code.assemble_mono htail (fun _ _ _ hc => ?_) fun _ _ hc => ?_
            · exact enterBody_mono hc (List.Subset.refl _) fun hu => unfold_mono hu hf
            · exact unfold_mono hc hf (List.Subset.refl _)
          have hbehind : a.chainFreeNames c.known rest = .ok (m.rest.freeNames c.known) :=
            chainFreeNames_eq hunfold
          refine .bind_ok (suffixNames_eq hbehind hearlier) ((Follows.lift _).bind ?_)
          have hearlier' : ∀ e ∈ earlier ++ [m], a.code e.blk = .ok e.body := by
            intro e he
            rcases List.mem_append.mp he with he | he
            · exact hearlier e he
            · rw [List.mem_singleton.mp he]
              exact code_of_enterBody hf hinner
          have hdecide := ih htail hearlier'
          rw [List.map_append] at hdecide
          exact hdecide _

end Deciding

/-! ## Blocks -/

/-- Where a block unfolds, its exploration follows that of the code; where it does not, the exploration
fails with the same fault. The fuel that bounds unfolding bounds the exploration in the same way. -/
theorem exploreBlock_agrees (a : Arena) (optimize : Bool) {fuel : Nat} (hf : fuel ≤ a.depthBound)
    (active : List (Name × BlockId)) (blk : BlockId) (c : Classification) :
    (∀ code, a.unfold fuel (active.map (·.2)) blk = .ok code →
      Follows active (a.exploreBlock optimize fuel blk c)
        ((code.plan optimize).exploreBlock optimize code c)) ∧
    ∀ e, a.unfold fuel (active.map (·.2)) blk = .error e → Steady optimize c →
      Fails active (a.exploreBlock optimize fuel blk c) e := by
  induction fuel generalizing active blk c with
  | zero =>
      refine ⟨fun _ h => (nomatch h), fun e h _ events => ?_⟩
      cases h
      rfl
  | succ fuel ih =>
      have hf' : fuel ≤ a.depthBound := Nat.le_of_succ_le hf
      -- the stack of bodies is the list of bodies around a block when it is unfolded
      have hopens : Opens a optimize (a.exploreBlock optimize fuel) active
          (Code.enterBody (a.unfold fuel) (active.map (·.2))) (a.unfold fuel (active.map (·.2))) := by
        refine ⟨code_of_enterBody hf', ?_, fun h c => (ih hf' active _ c).1 _ h, ?_,
          fun h c hc => (ih hf' active _ c).2 _ h hc⟩
        · intro ident blk inner h c
          unfold Code.enterBody at h
          split at h
          next => cases h
          next hblk => exact .within hblk ((ih hf' ((ident, blk) :: active) blk c).1 _ h)
        · intro ident blk e h c hc
          unfold Code.enterBody at h
          split at h
          next hblk =>
            cases h
            exact .within_of_mem hblk _
          next hblk => exact .within hblk ((ih hf' ((ident, blk) :: active) blk c).2 _ h hc)
      refine ⟨fun code h => ?_, fun e h hc => ?_⟩
      · obtain ⟨bounds, hblock, h⟩ := bind_eq_ok h
        refine .bind_ok hblock ((hopens.exploreChain_follows h c).1.bind ?_)
        exact decideAll_follows hf' h (fun _ he => absurd he List.not_mem_nil) _
      · rcases bind_eq_error h with he | ⟨bounds, hblock, h⟩
        · intro events
          simp only [exploreBlock, he]
          rfl
        · exact .after_ok hblock ((hopens.exploreChain_fails h hc).1.bind _)

/-- Classifying an arena is unfolding it and classifying its code: with the same result and the same
events, or with the fault of unfolding. -/
theorem classifyTraced_eq (a : Arena) (optimize : Bool) :
    a.classifyTraced optimize = (a.code entry).map (·.classify optimize) := by
  have hblock := a.exploreBlock_agrees optimize le_rfl [] entry .empty
  cases hcode : a.code entry with
  | ok code =>
      have hexplore : Follows [] (a.explore optimize) (code.classify optimize) :=
        (hblock.1 code hcode).bind (.bind_finish ((Follows.lift _).bind (.pure _)))
      simp only [classifyTraced, StateT.run, hexplore []]
      show Except.ok _ = Except.ok _
      rw [List.append_nil, List.reverse_reverse]
  | error e =>
      have hfails : Fails [] (a.explore optimize) e := (hblock.2 e hcode fun _ => rfl).bind _
      simp only [classifyTraced, StateT.run, hfails []]
      rfl

/-- An arena whose entry unfolds is classified as its code is. -/
theorem classify_of_code_eq_ok {code : Code} (h : a.code entry = .ok code) (optimize : Bool) :
    a.classify optimize = .ok (code.classify optimize).val := by
  rw [classify, classifyTraced_eq, h]
  rfl

/-- The classification of an arena whose entry does not unfold fails with the fault of unfolding. -/
theorem classify_of_code_eq_error {e : Fault} (h : a.code entry = .error e) (optimize : Bool) :
    a.classify optimize = .error e := by
  rw [classify, classifyTraced_eq, h]
  rfl

end Arena

end ClosureConversion
