import ClosureConversion.Conversion
import ClosureConversion.Proofs.Classification
import ClosureConversion.Proofs.Conversion.Application

/-!
# Converted programs are closed

`Code.converted` is code after conversion, block by block: literals are removed or become closure
constructions, and calls on record become indirect. It is what the converted arena shows
(`Code.shows_converted`).

`Code.Closed` says that code needs no name but those in scope, where the callee of a direct call is not
needed, and where closure constructions that follow one another may refer to each other. Conversion
makes code closed over its free names (`Code.converted_closed`): a literal that is removed is not
needed behind its place, and a later member of a run that an earlier one captures stays.
-/

namespace ClosureConversion

namespace Operation

/-- A call as an indirect call; any other operation as it is. -/
def indirect : Operation → Operation
  | .app callee args _ => .app callee args true
  | o => o

/-- The names that an operation needs as values: the callee of a direct call is none. -/
def valueReads : Operation → List Name
  | .app callee args indirect => if indirect then callee :: args else args
  | o => o.operands

/-- Whether an operation constructs a closure record. -/
def isMakeClosure : Operation → Bool
  | .makeClosure .. => true
  | _ => false

end Operation

namespace Code

/-- The names bound by the closure constructions that code begins with. -/
def closureRun : Code → List Name
  | .op _ ident (.makeClosure ..) rest => ident :: rest.closureRun
  | _ => []

/-- All names that code needs are bound where they are needed: by `scope`, by an earlier instruction of
the block or of one around it, or, for a closure construction, by one of the closure constructions
right behind it. No function literal is left. -/
def Closed (scope : List Name) : Code → Prop
  | .done => True
  | .op _ ident o rest =>
    (∀ n ∈ o.valueReads, n ∈ scope ∨ (o.isMakeClosure = true ∧ n ∈ rest.closureRun)) ∧
      rest.Closed (ident :: scope)
  | .fn .. => False
  | .branch _ ident cond _ _ yes no rest =>
    cond ∈ scope ∧ yes.Closed scope ∧ no.Closed scope ∧ rest.Closed (ident :: scope)

/-! ## Converted code -/

/-- Code after conversion. -/
def converted (c : Classification) : Code → Code
  | .done => .done
  | .op id ident o rest =>
    .op id ident (if c.closureCalls.contains id then o.indirect else o) (rest.converted c)
  | .fn id ident params blk body rest =>
    match c.decisions.get? id with
    | some d =>
      match d.action with
      | .remove => rest.converted c
      | .makeClosure captures => .op id ident (.makeClosure captures d.name) (rest.converted c)
    | none => .fn id ident params blk (body.converted c) (rest.converted c)
  | .branch id ident cond yesBlk noBlk yes no rest =>
    .branch id ident cond yesBlk noBlk (yes.converted c) (no.converted c) (rest.converted c)

/-- Only function literals are decided in a block. -/
def OnlyLiteralsDecided (c : Classification) (d : Code) : Prop :=
  ∀ i ∈ d.heads, i.rhs.isFn = false → c.decisions.get? i.id = none

/-- The items of converted code are the converted items. -/
theorem heads_converted {c : Classification} {d : Code} (h : d.OnlyLiteralsDecided c) :
    (d.converted c).heads = d.heads.filterMap c.convertItem := by
  induction d with
  | done => rfl
  | op id ident o rest ih =>
      have hid : c.decisions.get? id = none := h _ List.mem_cons_self rfl
      have hitem : c.convertItem ⟨id, ident, .op o⟩ =
          some ⟨id, ident, .op (if c.closureCalls.contains id then o.indirect else o)⟩ := by
        unfold Classification.convertItem Classification.mark
        split
        · cases o <;> simp only [Classification.carryOut, Item.indirect, hid] <;> rfl
        · simp only [Classification.carryOut, hid]
      rw [converted, heads, heads, List.filterMap_cons, hitem,
        ih fun i hi => h i (List.mem_cons_of_mem _ hi)]
  | fn id ident params blk body rest _ ih =>
      have hrest := ih fun i hi => h i (List.mem_cons_of_mem _ hi)
      rw [heads, List.filterMap_cons, Classification.convertItem,
        Classification.mark_of_isFn c rfl, Classification.carryOut, converted]
      cases c.decisions.get? id with
      | none => simp only [heads, hrest]
      | some d =>
          simp only [Decision.carryOut]
          cases d.action with
          | remove => exact hrest
          | makeClosure captures => simp only [heads, hrest]
  | branch id ident cond yesBlk noBlk yes no rest _ _ ih =>
      have hid : c.decisions.get? id = none := h _ List.mem_cons_self rfl
      have hitem : c.convertItem ⟨id, ident, .branch cond yesBlk noBlk⟩ =
          some ⟨id, ident, .branch cond yesBlk noBlk⟩ := by
        unfold Classification.convertItem Classification.mark
        split
        · simp only [Classification.carryOut, Item.indirect, hid]
          rfl
        · simp only [Classification.carryOut, hid]
      rw [converted, heads, heads, List.filterMap_cons, hitem,
        ih fun i hi => h i (List.mem_cons_of_mem _ hi)]

/-- The blocks nested in converted code are converted blocks of the code. -/
theorem exists_sublist_nested_converted (c : Classification) (d : Code) :
    ∃ l : List (BlockId × Code), l.Sublist d.nested ∧
      (d.converted c).nested = l.map fun x => (x.1, x.2.converted c) := by
  induction d with
  | done => exact ⟨[], List.Sublist.refl _, rfl⟩
  | op id ident o rest ih => exact ih
  | fn id ident params blk body rest ihb ih =>
      obtain ⟨l, hl, hrest⟩ := ih
      have hsub : l.Sublist (fn id ident params blk body rest).nested :=
        hl.trans (List.sublist_append_right _ _)
      rw [converted]
      cases c.decisions.get? id with
      | none =>
          obtain ⟨lb, hlb, hbody⟩ := ihb
          refine ⟨((blk, body) :: lb) ++ l, (hlb.cons_cons _).append hl, ?_⟩
          simp only [nested, hbody, hrest, List.map_append, List.map_cons]
      | some d =>
          dsimp only
          cases d.action with
          | remove => exact ⟨l, hsub, hrest⟩
          | makeClosure captures => exact ⟨l, hsub, hrest⟩
  | branch id ident cond yesBlk noBlk yes no rest ihy ihn ih =>
      obtain ⟨ly, hly, hyes⟩ := ihy
      obtain ⟨ln, hln, hno⟩ := ihn
      obtain ⟨l, hl, hrest⟩ := ih
      refine ⟨(((yesBlk, yes) :: ly) ++ ((noBlk, no) :: ln)) ++ l,
        ((hly.cons_cons _).append (hln.cons_cons _)).append hl, ?_⟩
      simp only [converted, nested, hyes, hno, hrest, List.map_append, List.map_cons]

/-- Conversion nests no block twice. -/
theorem nodup_nested_converted (c : Classification) {d : Code} (h : (d.nested.map (·.1)).Nodup) :
    ((d.converted c).nested.map (·.1)).Nodup := by
  obtain ⟨l, hl, heq⟩ := d.exists_sublist_nested_converted c
  rw [heq, List.map_map]
  exact (hl.map (·.1)).nodup h

/-- The blocks of converted code are blocks of the code, converted. -/
theorem exists_of_mem_blocks_converted {c : Classification} {d : Code} {blk : BlockId}
    {x : BlockId × Code} (hx : x ∈ (d.converted c).blocks blk) :
    ∃ y ∈ d.blocks blk, x = (y.1, y.2.converted c) := by
  rcases List.mem_cons.mp hx with rfl | hx
  · exact ⟨(blk, d), List.mem_cons_self, rfl⟩
  · obtain ⟨l, hl, heq⟩ := d.exists_sublist_nested_converted c
    rw [heq] at hx
    obtain ⟨y, hy, rfl⟩ := List.mem_map.mp hx
    exact ⟨y, List.mem_cons_of_mem _ (hl.subset hy), rfl⟩

/-- An arena whose items are converted shows the converted code. -/
theorem shows_converted {a a' : Arena} {c : Classification} {d : Code} {blk : BlockId}
    (h : a.Shows blk d) (he : Arena.Edited c.convertItem a a')
    (hdec : ∀ x ∈ d.blocks blk, x.2.OnlyLiteralsDecided c) : a'.Shows blk (d.converted c) := by
  intro x hx
  obtain ⟨y, hy, rfl⟩ := exists_of_mem_blocks_converted hx
  obtain ⟨⟨b, hb⟩, hitems⟩ := h y hy
  refine ⟨⟨b, (he.bounds y.1).trans hb⟩, ?_⟩
  rw [he.items, hitems, heads_converted (hdec y hy)]

/-! ## Closedness -/

/-- What a classification has on record about the literals and calls of code. -/
structure Settled (c : Classification) (earlier : List Member) (d : Code) : Prop where
  decision : ∀ s ∈ d.ownSites earlier ++ d.innerSites,
    c.decisions.get? s.member.id = some (s.decision c.known)
  call : ∀ x ∈ d.calls, c.closureCalls.contains x.1 = true ↔ x.2 ∉ c.known
  source : ∀ o ∈ d.erase.operations, o.isSource = true

namespace Settled

variable {c : Classification} {earlier : List Member} {id : RecordId} {ident cond : Name}
  {o : Operation} {params : List Name} {blk yesBlk noBlk : BlockId} {body yes no rest : Code}

/-- What follows a flat instruction is settled. -/
theorem op (h : (Code.op id ident o rest).Settled c earlier) : rest.Settled c [] where
  decision := h.decision
  call := fun x hx => h.call x (List.mem_append_right _ hx)
  source := fun o' ho => h.source o' (List.mem_cons_of_mem _ ho)

/-- What follows a literal is settled, with the literal among the earlier ones. -/
theorem fn (h : (Code.fn id ident params blk body rest).Settled c earlier) :
    rest.Settled c (earlier ++ [⟨id, ident, params, blk, body, rest⟩]) where
  decision := by
    intro s hs
    refine h.decision s ?_
    simp only [ownSites, innerSites, List.cons_append, List.mem_cons, List.mem_append] at hs ⊢
    tauto
  call := fun x hx => h.call x (List.mem_append_right _ hx)
  source := fun o' ho => h.source o' (List.mem_append_right _ ho)

/-- The blocks of a conditional and what follows it are settled. -/
theorem branch (h : (Code.branch id ident cond yesBlk noBlk yes no rest).Settled c earlier) :
    yes.Settled c [] ∧ no.Settled c [] ∧ rest.Settled c [] := by
  have hd := h.decision
  have hc := h.call
  have ho := h.source
  simp only [ownSites, innerSites, calls, erase, Block.operations, List.mem_append] at hd hc ho
  refine ⟨⟨?_, ?_, ?_⟩, ⟨?_, ?_, ?_⟩, ⟨?_, ?_, ?_⟩⟩
  · exact fun s hs => hd s (.inr (.inl (.inl (List.mem_append.mp hs))))
  · exact fun x hx => hc x (.inl (.inl hx))
  · exact fun o hx => ho o (.inl (.inl hx))
  · exact fun s hs => hd s (.inr (.inl (.inr (List.mem_append.mp hs))))
  · exact fun x hx => hc x (.inl (.inr hx))
  · exact fun o hx => ho o (.inl (.inr hx))
  · intro s hs
    exact hd s ((List.mem_append.mp hs).imp (fun h => h) fun h => .inr h)
  · exact fun x hx => hc x (.inr hx)
  · exact fun o hx => ho o (.inr hx)

/-- A literal becomes a closure construction if it is needed behind its place, and goes otherwise. -/
theorem converted_fn (h : (Code.fn id ident params blk body rest).Settled c earlier) :
    (Code.fn id ident params blk body rest).converted c =
      if ident ∈ Site.suffix c.known ⟨earlier, ⟨id, ident, params, blk, body, rest⟩⟩ then
        .op id ident
          (.makeClosure (Member.captures c.known ⟨id, ident, params, blk, body, rest⟩) ident)
          (rest.converted c)
      else rest.converted c := by
  have hd := h.decision _ (List.mem_append_left _ List.mem_cons_self)
  rw [converted, hd]
  dsimp only [Site.decision, Site.action]
  by_cases hs : ident ∈ Site.suffix c.known ⟨earlier, ⟨id, ident, params, blk, body, rest⟩⟩
  · rw [if_pos hs, if_pos hs]
  · rw [if_neg hs, if_neg hs]

end Settled

variable {c : Classification}

/-- A member of a run that an earlier one needs stays, and all that stands before it in the run are
closure constructions. -/
theorem mem_closureRun_converted {earlier : List Member} {d : Code} {e : Member} {n : Name}
    (h : d.Settled c earlier) (he : e ∈ earlier) (hn : n ∈ d.runNames)
    (hfree : n ∈ e.freeNames c.known) : n ∈ (d.converted c).closureRun := by
  induction d generalizing earlier with
  | done => exact absurd hn List.not_mem_nil
  | op _ _ _ _ _ => exact absurd hn List.not_mem_nil
  | branch _ _ _ _ _ _ _ _ _ _ _ => exact absurd hn List.not_mem_nil
  | fn id ident params blk body rest _ ih =>
      rw [h.converted_fn]
      rcases List.mem_cons.mp hn with rfl | hn
      · rw [if_pos (Site.mem_suffix_self.mpr (.inr ⟨e, he, hfree⟩))]
        exact List.mem_cons_self
      · have hrest := ih h.fn (List.mem_append_left _ he) hn
        split
        · exact List.mem_cons_of_mem _ hrest
        · exact hrest

/-- A converted operation needs as values what the operation needs where the known functions are
called directly. -/
theorem mem_needs_of_mem_valueReads {known : NameSet} {o : Operation} {marked : Bool} {n : Name}
    (hsource : o.isSource = true)
    (hmarked : ∀ callee ∈ o.callee?, marked = true ↔ callee ∉ known)
    (hn : n ∈ (if marked then o.indirect else o).valueReads) : n ∈ o.needs known := by
  cases o with
  | app callee args indirect =>
      have hdirect : indirect = false := by simpa [Operation.isSource] using hsource
      have hm := hmarked callee rfl
      rw [Operation.needs]
      cases marked with
      | true =>
          rw [if_neg (hm.mp rfl)]
          exact hn
      | false =>
          have hk : callee ∈ known := by
            by_contra hk
            exact Bool.false_ne_true (hm.mpr hk)
          rw [if_pos hk]
          rw [hdirect] at hn
          exact hn
  | _ =>
      simp only [Operation.indirect, ite_self] at hn
      exact hn

/-- Conversion makes code closed over its free names. The induction follows the block: what is bound
so far covers what is free in the rest. -/
theorem converted_closed {earlier : List Member} {d : Code} {scope : List Name}
    (h : d.Settled c earlier) (hscope : ∀ n, d.IsFree c.known n → n ∈ scope) :
    (d.converted c).Closed scope := by
  induction d generalizing earlier scope with
  | done => trivial
  | op id ident o rest ih =>
      refine ⟨fun n hn => .inl (hscope n (.inl ?_)), ih h.op fun n hn => ?_⟩
      · refine mem_needs_of_mem_valueReads (h.source o List.mem_cons_self) (fun callee hc => ?_) hn
        refine h.call (id, callee) (List.mem_append_left _ ?_)
        exact List.mem_map_of_mem (Option.mem_toList.mpr hc)
      · by_cases hne : n = ident
        · exact hne ▸ List.mem_cons_self
        · exact List.mem_cons_of_mem _ (hscope n (.inr ⟨hne, hn⟩))
  | branch id ident cond yesBlk noBlk yes no rest ihy ihn ih =>
      obtain ⟨hyes, hno, hrest⟩ := h.branch
      refine ⟨hscope cond (.inl rfl), ihy hyes fun n hn => hscope n (.inr (.inl hn)),
        ihn hno fun n hn => hscope n (.inr (.inr (.inl hn))), ih hrest fun n hn => ?_⟩
      by_cases hne : n = ident
      · exact hne ▸ List.mem_cons_self
      · exact List.mem_cons_of_mem _ (hscope n (.inr (.inr (.inr ⟨hne, hn⟩))))
  | fn id ident params blk body rest _ ih =>
      have hrest : ∀ n, rest.IsFree c.known n → n ≠ ident → n ∈ scope := by
        intro n hn hne
        refine hscope n (isFree_fn.mpr ⟨?_, .inr hn⟩)
        rw [List.mem_cons, not_or]
        exact ⟨hne, hn.not_mem_runNames⟩
      rw [h.converted_fn]
      split
      next hs =>
        refine ⟨fun n hn => ?_, ih h.fn fun n hn => ?_⟩
        · have hcapt : n ∈ Member.captures c.known ⟨id, ident, params, blk, body, rest⟩ := hn
          rw [Member.captures] at hcapt
          split at hcapt
          · exact absurd hcapt List.not_mem_nil
          obtain ⟨hfree, hne⟩ := NameSet.mem_erase.mp hcapt
          by_cases hrun : n ∈ rest.runNames
          · -- a later member of the run: it is needed by this one, so it stays
            refine .inr ⟨rfl, mem_closureRun_converted h.fn ?_ hrun hfree⟩
            exact List.mem_append_right _ (List.mem_singleton_self _)
          · obtain ⟨hbody, hparams⟩ := mem_bodyFreeNames.mp hfree
            refine .inl (hscope n (isFree_fn.mpr ⟨?_, .inl ⟨hparams, hbody⟩⟩))
            rw [List.mem_cons, not_or]
            exact ⟨hne, hrun⟩
        · by_cases hne : n = ident
          · exact hne ▸ List.mem_cons_self
          · exact List.mem_cons_of_mem _ (hrest n hn hne)
      next hs =>
        refine ih h.fn fun n hn => hrest n hn ?_
        rintro rfl
        exact hs (Site.mem_suffix_self.mpr (.inl hn))

end Code

end ClosureConversion
