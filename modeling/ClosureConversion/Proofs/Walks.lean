import ClosureConversion.Analysis.FreeNames

/-!
# Walks in search of free names

A walk opens a frame for each block that it enters and closes it when it leaves the block. So a step
of a walk leaves all frames but the innermost as they were (`Walk.Keeps`), and whatever the arena, a
walk that comes to an end comes there with the one frame that it began with: the free names of a
block, or the report of a block that does not exist or has no end, but never of a frame that is left
open (`Arena.freeNames_tidy`).

On code that is already unfolded, frames need not be kept apart: `Code.gather` has one list of names
in scope and is a recursion over code. Where a block unfolds, the walk comes to an end and finds what
`Code.gather` finds (`Arena.freeNames_eq`, `Arena.freeNamesFrom_eq`, `Arena.functionFreeNames_eq`).
Nothing else makes the walk end: it does not guard against blocks that lead back to themselves. The
same goes for the names that a block reads (`Arena.reads_eq`).
-/

namespace ClosureConversion

/-! ## Free names of code -/

namespace Code

/-- Walk code and add its free names to `found`. `bound` are the names in scope; `inRun` tells
whether the walk is inside a run of literals, whose names are in scope already. -/
def gather (known : NameSet) (bound : List Name) (inRun : Bool) (found : NameSet) : Code → NameSet
  | .done => found
  | .op _ ident o rest =>
    rest.gather known (ident :: bound) false (found.addFree bound (o.needs known))
  | .fn _ ident params _ body rest =>
    let scope := if inRun then bound else ident :: rest.runNames ++ bound
    let found := body.gather known (ident :: params ++ scope) false found
    rest.gather known (ident :: scope) true found
  | .branch _ ident cond _ _ yes no rest =>
    let found := found.addFree bound [cond]
    let found := yes.gather known bound false found
    let found := no.gather known bound false found
    rest.gather known (ident :: bound) false found

/-- The free names of code when `known` functions are called directly. -/
def freeNames (known : NameSet) (c : Code) : NameSet := c.gather known [] false ∅

/-- The free names of a function body: its parameters are not free, its own name may be. -/
def bodyFreeNames (known : NameSet) (params : List Name) (body : Code) : NameSet :=
  (body.freeNames known).eraseAll params

end Code

/-! ## Reads of code -/

namespace Code

/-- Add everything that code reads to `found`. -/
def gatherReads (found : NameSet) : Code → NameSet
  | .done => found
  | .op _ _ o rest => rest.gatherReads (found.insertAll o.operands)
  | .fn _ _ _ _ body rest => rest.gatherReads (body.gatherReads found)
  | .branch _ _ cond _ _ yes no rest =>
    rest.gatherReads (no.gatherReads (yes.gatherReads (found.insert cond)))

/-- Every name that code reads, bound or not, in order of first reading. -/
def reads (c : Code) : NameSet := c.gatherReads ∅

end Code

/-! ## Computations that may fail -/

/-- A computation that goes on with the result of another fails if that one fails, or if it fails on
the result. -/
theorem bind_eq_error {α β : Type} {x : Except Fault α} {f : α → Except Fault β} {e : Fault}
    (h : x >>= f = .error e) : x = .error e ∨ ∃ v, x = .ok v ∧ f v = .error e := by
  cases x with
  | error e' =>
      cases h
      exact .inl rfl
  | ok v => exact .inr ⟨v, rfl, h⟩

/-- A computation that goes on with the result of another succeeds only if both do. -/
theorem bind_eq_ok {α β : Type} {x : Except Fault α} {f : α → Except Fault β} {v : β}
    (h : x >>= f = .ok v) : ∃ u, x = .ok u ∧ f u = .ok v := by
  cases x with
  | error e => cases h
  | ok u => exact ⟨u, rfl, h⟩

/-! ## Frames -/

/-- A fault that reports what was begun and not ended. -/
def Fault.LeftOpen : Fault → Prop
  | .unfinished _ _ | .unbalanced _ => True
  | _ => False

/-- A computation that never reports what was begun and not ended. -/
def Tidy {α : Type} (x : Except Fault α) : Prop := ∀ e, x = .error e → ¬e.LeftOpen

namespace Tidy

variable {α β : Type}

/-- A result is no report. -/
theorem ok (v : α) : Tidy (.ok v) := fun _ he => nomatch he

/-- A report of something else. -/
theorem error {e : Fault} (h : ¬e.LeftOpen) : Tidy (.error e : Except Fault α) := by
  intro e' he
  cases he
  exact h

/-- Computations one after the other. -/
theorem bind {x : Except Fault α} {f : α → Except Fault β} (h : Tidy x)
    (hf : ∀ v, x = .ok v → Tidy (f v)) : Tidy (x >>= f) := by
  intro e he
  rcases bind_eq_error he with he | ⟨v, hv, he⟩
  · exact h e he
  · exact hf v hv e he

end Tidy

namespace Walk

variable {known : NameSet} {enter : BlockId → Walk → Except Fault Walk}

/-- A step of a walk leaves the frames around the innermost as they were, and reports no frame that is
left open. -/
structure Keeps (step : Walk → Except Fault Walk) : Prop where
  outer : ∀ {frame outer found w}, step ⟨frame :: outer, found⟩ = .ok w →
    ∃ frame' found', w = ⟨frame' :: outer, found'⟩
  tidy : ∀ w, Tidy (step w)

/-- What is walked in a frame of its own leaves all frames as they were. -/
theorem Keeps.nest {step : Walk → Except Fault Walk} (h : Keeps step) {frame inner : List Name}
    {outer : List (List Name)} {found : NameSet} {w : Walk}
    (hw : (⟨frame :: outer, found⟩ : Walk).nest inner step = .ok w) :
    ∃ found', w = ⟨frame :: outer, found'⟩ := by
  obtain ⟨w', hw', hw⟩ := bind_eq_ok hw
  obtain ⟨frame', found', rfl⟩ := h.outer hw'
  cases hw
  exact ⟨found', rfl⟩

/-- What is walked in a frame of its own reports no frame that is left open. -/
theorem Keeps.nest_tidy {step : Walk → Except Fault Walk} (h : Keeps step) (w : Walk)
    (inner : List Name) : Tidy (w.nest inner step) :=
  (h.tidy _).bind fun _ _ => .ok _

/-- A walk along a chain leaves the frames around it as they were, if the walks of the blocks on the
way do. -/
theorem Keeps.chain (h : ∀ blk, Keeps (enter blk)) (inRun : Bool) (l : List (RecordId × Record)) :
    Keeps (walkChain known enter inRun l) := by
  induction l generalizing inRun with
  | nil =>
      refine ⟨fun hw => ?_, fun w => .ok w⟩
      cases hw
      exact ⟨_, _, rfl⟩
  | cons x rest ih =>
      obtain ⟨id, ident, rhs, prev, next⟩ := x
      cases rhs with
      | op o => exact ⟨fun hw => (ih false).outer hw, fun w => (ih false).tidy _⟩
      | fn params blk =>
          refine ⟨fun {frame outer found w} hw => ?_, fun w => ?_⟩
          · obtain ⟨w', hw', hw⟩ := bind_eq_ok hw
            -- the names of a run are bound in the innermost frame, at its first member
            cases inRun with
            | false =>
                obtain ⟨found', rfl⟩ := (h blk).nest hw'
                exact (ih true).outer hw
            | true =>
                obtain ⟨found', rfl⟩ := (h blk).nest hw'
                exact (ih true).outer hw
          · exact ((h blk).nest_tidy _ _).bind fun _ _ => (ih true).tidy _
      | branch cond yes no =>
          refine ⟨fun {frame outer found w} hw => ?_, fun w => ?_⟩
          · obtain ⟨w₁, hw₁, hw⟩ := bind_eq_ok hw
            obtain ⟨found₁, rfl⟩ := (h yes).nest hw₁
            obtain ⟨w₂, hw₂, hw⟩ := bind_eq_ok hw
            obtain ⟨found₂, rfl⟩ := (h no).nest hw₂
            exact (ih false).outer hw
          · refine ((h yes).nest_tidy _ _).bind fun _ _ => ?_
            exact ((h no).nest_tidy _ _).bind fun _ _ => (ih false).tidy _

end Walk

namespace Arena

/-- The report of a block that does not exist is about no frame. -/
theorem requireBlock_tidy (a : Arena) (blk : BlockId) : Tidy (a.requireBlock blk) := by
  unfold requireBlock
  split
  · exact .ok _
  · exact .error fun h => h

/-- A walk of a block leaves the frames around it as they were. -/
theorem keeps_walkBlock (a : Arena) (known : NameSet) (fuel : Nat) (blk : BlockId) :
    Walk.Keeps (a.walkBlock known fuel blk) := by
  induction fuel generalizing blk with
  | zero => exact ⟨fun hw => (nomatch hw), fun _ => .error fun h => h⟩
  | succ fuel ih =>
      have hchain : Walk.Keeps (walkChain known (a.walkBlock known fuel) false (a.list blk)) :=
        .chain ih false (a.list blk)
      refine ⟨fun hw => ?_, fun w => ?_⟩
      · obtain ⟨_, -, hw⟩ := bind_eq_ok hw
        exact hchain.outer hw
      · exact (a.requireBlock_tidy blk).bind fun _ _ => hchain.tidy w

/-- A walk that begins with one frame comes to its end with one frame. -/
theorem finish_eq_ok {step : Walk → Except Fault Walk} (h : Walk.Keeps step) {w : Walk}
    (hw : step .start = .ok w) : w.finish = .ok w.found := by
  obtain ⟨frame, found, rfl⟩ := h.outer hw
  rfl

/-- A walk that begins with one frame reports no frame that is left open. -/
theorem walk_tidy {step : Walk → Except Fault Walk} (h : Walk.Keeps step) :
    Tidy (step .start >>= Walk.finish) := by
  refine (h.tidy _).bind fun w hw => ?_
  rw [finish_eq_ok h hw]
  exact .ok _

/-- No walk of a block leaves a frame open, whatever the arena. -/
theorem freeNames_tidy (a : Arena) (known : NameSet) (blk : BlockId) :
    Tidy (a.freeNames known blk) :=
  walk_tidy (a.keeps_walkBlock known a.depthBound blk)

/-- No walk of a chain leaves a frame open, whatever the arena. -/
theorem chainFreeNames_tidy (a : Arena) (known : NameSet) (l : List (RecordId × Record)) :
    Tidy (a.chainFreeNames known l) :=
  walk_tidy (.chain (a.keeps_walkBlock known a.depthBound) false l)

/-- No walk of a function leaves a frame open, whatever the arena. -/
theorem functionFreeNames_tidy (a : Arena) (known : NameSet) (params : List Name) (blk : BlockId) :
    Tidy (a.functionFreeNames known params blk) :=
  (a.freeNames_tidy known blk).bind fun _ _ => .ok _

end Arena

/-! ## What a walk finds -/

namespace Walk

variable {known : NameSet} {step : Walk → Except Fault Walk} {code : Code}

/-- A step of a walk finds what is free in code and leaves the frames around the innermost as they
were. -/
def Gathers (known : NameSet) (inRun : Bool) (code : Code) (step : Walk → Except Fault Walk) :
    Prop :=
  ∀ frame outer found, ∃ frame', step ⟨frame :: outer, found⟩ =
    .ok ⟨frame' :: outer, code.gather known (frame ++ outer.flatten) inRun found⟩

/-- What is walked in a frame of its own finds what is free with these names in scope. -/
theorem Gathers.nest (h : Gathers known false code step) (w : Walk) (inner : List Name) :
    w.nest inner step =
      .ok { w with found := code.gather known (inner ++ w.bound) false w.found } := by
  obtain ⟨frame', hstep⟩ := h inner w.scopes w.found
  simp only [Walk.nest, hstep]
  rfl

end Walk

/-- The literals that a chain begins with are those that its code begins with. -/
theorem leadingNames_eq {body : Name → BlockId → Except Fault Code}
    {branch : BlockId → Except Fault Code} {l : List (RecordId × Record)} {code : Code}
    (h : Code.assemble body branch l = .ok code) : leadingNames l = code.runNames := by
  induction l generalizing code with
  | nil =>
      cases h
      rfl
  | cons x rest ih =>
      obtain ⟨id, ident, rhs, prev, next⟩ := x
      cases rhs with
      | op o =>
          obtain ⟨c, -, hcode⟩ := bind_eq_ok h
          cases hcode
          rfl
      | fn params blk =>
          obtain ⟨inner, -, h⟩ := bind_eq_ok h
          obtain ⟨c, hc, hcode⟩ := bind_eq_ok h
          cases hcode
          exact congrArg (ident :: ·) (ih hc)
      | branch cond yes no =>
          obtain ⟨y, -, h⟩ := bind_eq_ok h
          obtain ⟨n, -, h⟩ := bind_eq_ok h
          obtain ⟨c, -, hcode⟩ := bind_eq_ok h
          cases hcode
          rfl

/-- A walk along a chain finds what is free in its code, if the walks of the blocks on the way do. -/
theorem Walk.Gathers.chain {known : NameSet} {enter : BlockId → Walk → Except Fault Walk}
    {body : Name → BlockId → Except Fault Code} {branch : BlockId → Except Fault Code}
    {l : List (RecordId × Record)} {code : Code} (h : Code.assemble body branch l = .ok code)
    (hbody : ∀ ident blk c, body ident blk = .ok c → Gathers known false c (enter blk))
    (hbranch : ∀ blk c, branch blk = .ok c → Gathers known false c (enter blk)) (inRun : Bool) :
    Gathers known inRun code (walkChain known enter inRun l) := by
  induction l generalizing code inRun with
  | nil =>
      cases h
      exact fun frame outer found => ⟨frame, rfl⟩
  | cons x rest ih =>
      obtain ⟨id, ident, rhs, prev, next⟩ := x
      intro frame outer found
      cases rhs with
      | op o =>
          obtain ⟨c, hc, hcode⟩ := bind_eq_ok h
          cases hcode
          exact ih hc false (ident :: frame) outer _
      | fn params blk =>
          obtain ⟨inner, hinner, h⟩ := bind_eq_ok h
          obtain ⟨c, hc, hcode⟩ := bind_eq_ok h
          cases hcode
          simp only [walkChain, (hbody _ _ _ hinner).nest]
          -- the names of the run go into the frame of the block with its first member
          cases inRun with
          | true => exact ih hc true (ident :: frame) outer _
          | false =>
              obtain ⟨frame', hrest⟩ :=
                ih hc true (ident :: (ident :: leadingNames rest ++ frame)) outer _
              refine ⟨frame', hrest.trans ?_⟩
              simp only [Code.gather, leadingNames_eq hc, Walk.bound, Walk.bind, Bool.false_eq_true,
                if_false, List.flatten_cons, List.cons_append, List.append_assoc]
      | branch cond yes no =>
          obtain ⟨y, hy, h⟩ := bind_eq_ok h
          obtain ⟨n, hn, h⟩ := bind_eq_ok h
          obtain ⟨c, hc, hcode⟩ := bind_eq_ok h
          cases hcode
          obtain ⟨frame', hrest⟩ := ih hc false (ident :: frame) outer _
          refine ⟨frame', Eq.trans ?_ hrest⟩
          simp only [walkChain, (hbranch _ _ hy).nest, (hbranch _ _ hn).nest]
          rfl

namespace Arena

variable {a : Arena} {known : NameSet} {blk : BlockId} {c : Code}

/-- A walk along a chain finds what is free in its code, if the walks of all blocks that unfold do. -/
theorem gathers_walkChain {fuel : Nat} {active : List BlockId} {l : List (RecordId × Record)}
    (hblock : ∀ active blk c, a.unfold fuel active blk = .ok c →
      Walk.Gathers known false c (a.walkBlock known fuel blk))
    (h : Code.assemble (Code.enterBody (a.unfold fuel) active) (a.unfold fuel active) l = .ok c) :
    Walk.Gathers known false c (walkChain known (a.walkBlock known fuel) false l) := by
  refine .chain h (fun ident blk c hc => ?_) (hblock active) false
  unfold Code.enterBody at hc
  split at hc
  · cases hc
  · exact hblock _ blk c hc

/-- Where a block unfolds, its walk comes to an end and finds what is free in the code. The fuel that
is enough to unfold the block is enough to walk it. -/
theorem gathers_walkBlock {fuel : Nat} {active : List BlockId} (known : NameSet)
    (h : a.unfold fuel active blk = .ok c) :
    Walk.Gathers known false c (a.walkBlock known fuel blk) := by
  induction fuel generalizing active blk c with
  | zero => cases h
  | succ fuel ih =>
      obtain ⟨bounds, hblock, h⟩ := bind_eq_ok h
      intro frame outer found
      obtain ⟨frame', hchain⟩ := gathers_walkChain (fun _ _ _ => ih) h frame outer found
      refine ⟨frame', ?_⟩
      simp only [walkBlock, hblock]
      exact hchain

/-- The free names of a block that unfolds are those of its code. -/
theorem freeNames_eq (h : a.code blk = .ok c) : a.freeNames known blk = .ok (c.freeNames known) := by
  obtain ⟨frame, hwalk⟩ := gathers_walkBlock known h [] [] ∅
  simp only [freeNames, Walk.start, hwalk]
  rfl

/-- The free names of a chain that unfolds are those of its code. -/
theorem chainFreeNames_eq {l : List (RecordId × Record)} {active : List BlockId}
    (h : Code.assemble (Code.enterBody (a.unfold a.depthBound) active)
      (a.unfold a.depthBound active) l = .ok c) :
    a.chainFreeNames known l = .ok (c.freeNames known) := by
  obtain ⟨frame, hwalk⟩ := gathers_walkChain (fun _ _ _ => gathers_walkBlock known) h [] [] ∅
  simp only [chainFreeNames, Walk.start, hwalk]
  rfl

/-- The free names from a record on are those of the code that stands there. -/
theorem freeNamesFrom_eq {id : RecordId} (h : a.codeFrom id = .ok c) :
    a.freeNamesFrom known id = .ok (c.freeNames known) := by
  obtain ⟨r, hrecord, h⟩ := bind_eq_ok h
  simp only [freeNamesFrom, hrecord]
  exact chainFreeNames_eq h

/-- The free names of a function whose body unfolds are those of the code of its body. -/
theorem functionFreeNames_eq {params : List Name} (h : a.code blk = .ok c) :
    a.functionFreeNames known params blk = .ok (c.bodyFreeNames known params) := by
  rw [functionFreeNames, freeNames_eq h]
  rfl

/-- What is read along a chain is what its code reads, if this holds of the blocks on the way. -/
theorem readChain_eq {enter : BlockId → NameSet → Except Fault NameSet}
    {body : Name → BlockId → Except Fault Code} {branch : BlockId → Except Fault Code}
    {l : List (RecordId × Record)} {code : Code} (h : Code.assemble body branch l = .ok code)
    (hbody : ∀ ident blk c found, body ident blk = .ok c →
      enter blk found = .ok (c.gatherReads found))
    (hbranch : ∀ blk c found, branch blk = .ok c → enter blk found = .ok (c.gatherReads found))
    (found : NameSet) : readChain enter l found = .ok (code.gatherReads found) := by
  induction l generalizing code found with
  | nil =>
      cases h
      rfl
  | cons x rest ih =>
      obtain ⟨id, ident, rhs, prev, next⟩ := x
      cases rhs with
      | op o =>
          obtain ⟨tail, htail, hcode⟩ := bind_eq_ok h
          cases hcode
          exact ih htail _
      | fn params blk =>
          obtain ⟨inner, hinner, h⟩ := bind_eq_ok h
          obtain ⟨tail, htail, hcode⟩ := bind_eq_ok h
          cases hcode
          simp only [readChain, hbody _ _ _ found hinner]
          exact ih htail _
      | branch cond yes no =>
          obtain ⟨y, hy, h⟩ := bind_eq_ok h
          obtain ⟨n, hn, h⟩ := bind_eq_ok h
          obtain ⟨tail, htail, hcode⟩ := bind_eq_ok h
          cases hcode
          simp only [readChain, hbranch _ _ _ hy, hbranch _ _ _ hn]
          exact ih htail _

/-- What is read in a block that unfolds is what its code reads. -/
theorem readBlock_eq {fuel : Nat} {active : List BlockId} (h : a.unfold fuel active blk = .ok c)
    (found : NameSet) : a.readBlock fuel blk found = .ok (c.gatherReads found) := by
  induction fuel generalizing active blk c found with
  | zero => cases h
  | succ fuel ih =>
      obtain ⟨bounds, hblock, h⟩ := bind_eq_ok h
      simp only [readBlock, hblock]
      refine readChain_eq h (fun ident blk c found hc => ?_) (fun _ _ found hc => ih hc found) found
      unfold Code.enterBody at hc
      split at hc
      · cases hc
      · exact ih hc found

/-- The reads of a block that unfolds are those of its code. -/
theorem reads_eq (h : a.code blk = .ok c) : a.reads blk = .ok c.reads := readBlock_eq h ∅

end Arena

end ClosureConversion
