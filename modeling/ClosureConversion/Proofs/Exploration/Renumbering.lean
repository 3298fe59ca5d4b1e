import ClosureConversion.Proofs.Arena.Trees
import ClosureConversion.Proofs.Exploration.Simulation

/-!
# Numbers do not matter

Two codes that differ in their numbers only are explored in the same way. `Code.Same` relates such
codes by a relation between their records, and `Classification.Agree` relates the states of the two
explorations: the same functions are known, the same names are captured, and related records have the
same fate. This is the case of the simulation in which names stay as they are and nothing is said about
the numbers of blocks (`Code.Same.mirrors`, `Classification.Mirrors.agree`). No condition on names or
scopes is needed.
-/

namespace ClosureConversion

/-! ## Nothing renamed -/

/-- A set in which nothing is renamed stays. -/
@[simp] theorem NameSet.rename_refl (s : NameSet) : s.rename (.refl Name) = s :=
  NameSet.eq_of_toList_eq (List.map_id _)

/-- A table whose keys stay and whose values are the same stays. -/
theorem Table.rename_refl {α : Type} {f : α → α} (hf : ∀ v, f v = v) (t : Table Name α) :
    t.rename (.refl Name) f = t := by
  apply Table.ext_get?
  intro n
  have h := t.get?_rename (.refl Name) f n
  rw [Function.Embedding.refl_apply] at h
  rw [h, show f = id from funext hf, Option.map_id, id_eq]

/-- Names that are not renamed stay. -/
@[simp] theorem map_refl (names : List Name) :
    names.map (Function.Embedding.refl Name) = names :=
  List.map_id names

/-- An operation in which nothing is renamed stays. -/
@[simp] theorem Operation.rename_refl (o : Operation) : o.rename (.refl Name) = o := by
  cases o <;> simp only [Operation.rename, map_refl, Function.Embedding.refl_apply]

/-- An action in which nothing is renamed stays. -/
@[simp] theorem Action.rename_refl (x : Action) : x.rename (.refl Name) = x := by
  cases x <;> simp only [Action.rename, map_refl]

/-- The correspondence of programs that differ in their numbers only. -/
def Correspondence.renumbering (R : RecordId → RecordId → Prop) : Correspondence :=
  ⟨.refl Name, R, fun _ _ => True⟩

/-! ## Codes with other numbers -/

/-- Codes that differ in their numbers only, with records related by `R`. -/
inductive Code.Same (R : RecordId → RecordId → Prop) : Code → Code → Prop where
  | done : Same R .done .done
  | op {id id' : RecordId} {rest rest' : Code} (ident : Name) (o : Operation) : R id id' →
    Same R rest rest' → Same R (.op id ident o rest) (.op id' ident o rest')
  | fn {id id' : RecordId} {blk blk' : BlockId} {body body' rest rest' : Code} (ident : Name)
    (params : List Name) : R id id' → Same R body body' → Same R rest rest' →
    Same R (.fn id ident params blk body rest) (.fn id' ident params blk' body' rest')
  | branch {id id' : RecordId} {yesBlk yesBlk' noBlk noBlk' : BlockId}
    {yes yes' no no' rest rest' : Code} (ident cond : Name) : R id id' → Same R yes yes' →
    Same R no no' → Same R rest rest' →
    Same R (.branch id ident cond yesBlk noBlk yes no rest)
      (.branch id' ident cond yesBlk' noBlk' yes' no' rest')

/-- Members of runs that differ in their numbers only. -/
structure Member.Same (R : RecordId → RecordId → Prop) (m m' : Member) : Prop where
  id : R m.id m'.id
  ident : m.ident = m'.ident
  params : m.params = m'.params
  body : Code.Same R m.body m'.body
  rest : Code.Same R m.rest m'.rest

namespace Code.Same

variable {R : RecordId → RecordId → Prop} {c c' : Code}

/-- More records may be related. -/
theorem mono {R' : RecordId → RecordId → Prop} (h : Same R c c') (hR : ∀ x y, R x y → R' x y) :
    Same R' c c' := by
  induction h with
  | done => exact .done
  | op ident o hid _ ih => exact .op ident o (hR _ _ hid) ih
  | fn ident params hid _ _ ihb ih => exact .fn ident params (hR _ _ hid) ihb ih
  | branch ident cond hid _ _ _ ihy ihn ih => exact .branch ident cond (hR _ _ hid) ihy ihn ih

/-- Codes that differ in their numbers only mirror each other without a renaming. -/
theorem mirrors (h : Same R c c') : c.Mirrors (.renumbering R) c' := by
  induction h with
  | done => exact .done
  | op ident o hid _ ih =>
      have hop := Mirrors.op (k := .renumbering R) ident o hid ih
      rwa [show o.rename (Correspondence.renumbering R).names = o from o.rename_refl] at hop
  | @fn _ _ blk blk' _ _ _ _ ident params hid _ _ ihb ih =>
      have hblk : (Correspondence.renumbering R).blocks blk blk' := trivial
      have hfn := Mirrors.fn ident params hid hblk ihb ih
      rwa [show params.map (Correspondence.renumbering R).names = params from List.map_id _] at hfn
  | branch ident cond hid _ _ _ ihy ihn ih => exact .branch ident cond hid ihy ihn ih

/-- Free names do not depend on numbers. -/
theorem freeNames_eq (h : Same R c c') (known : NameSet) :
    c.freeNames known = c'.freeNames known := by
  have hfree := h.mirrors.freeNames_eq known
  simp only [Correspondence.renumbering, NameSet.rename_refl] at hfree
  exact hfree.symm

end Code.Same

/-! ## States in agreement -/

/-- What is decided about a literal, but for the number of its body. -/
def Decision.fate (d : Decision) : Name × List Name × Standing × Action :=
  (d.name, d.params, d.standing, d.action)

/-- States that differ in the numbers of records only. -/
structure Classification.Agree (R : RecordId → RecordId → Prop) (c c' : Classification) : Prop where
  known : c.known = c'.known
  closures : c.closures = c'.closures
  suffixes : c.suffixes = c'.suffixes
  calls : ∀ {id id'}, R id id' → (c.closureCalls.contains id = true ↔
    c'.closureCalls.contains id' = true)
  decisions : ∀ {id id'}, R id id' →
    (c.decisions.get? id).map Decision.fate = (c'.decisions.get? id').map Decision.fate

/-- States that mirror each other without a renaming agree. -/
theorem Classification.Mirrors.agree {R : RecordId → RecordId → Prop} {c c' : Classification}
    (h : c.Mirrors (.renumbering R) c') : c.Agree R c' where
  known := (h.known.trans (NameSet.rename_refl _)).symm
  closures := (h.closures.trans (Table.rename_refl (fun _ => List.map_id _) _)).symm
  suffixes := (h.suffixes.trans (Table.rename_refl NameSet.rename_refl _)).symm
  calls := h.calls
  decisions := by
    intro id id' hid
    have hd := h.decisions hid
    generalize c.decisions.get? id = x, c'.decisions.get? id' = x' at hd
    cases hd with
    | none => rfl
    | @some d d' hd =>
        simp only [Option.map_some, Decision.fate, hd.name, hd.params, hd.standing, hd.action,
          Correspondence.renumbering, Function.Embedding.refl_apply, map_refl, Action.rename_refl]

/-- Codes that differ in their numbers only are classified in the same way. -/
theorem Code.Same.agree_classify {R : RecordId → RecordId → Prop} {c c' : Code} (hR : OneToOne R)
    (h : c.Same R c') (optimize : Bool) :
    (c.classify optimize).val.Agree R (c'.classify optimize).val :=
  (h.mirrors.classify hR optimize).agree

/-! ## The relation between two numberings -/

namespace Code

/-- Records at the same place of two codes. -/
def Corresponds (c c' : Code) (id id' : RecordId) : Prop := (id, id') ∈ c.ids.zip c'.ids

/-- Codes with the same nested block differ in their numbers only: the records at the same places
correspond. -/
theorem same_of_erase_eq {c c' : Code} (h : c.erase = c'.erase) :
    c.ids.length = c'.ids.length ∧ c.Same (c.Corresponds c') c' := by
  induction c generalizing c' with
  | done =>
      cases c' with
      | done => exact ⟨rfl, .done⟩
      | _ => simp [erase] at h
  | op id ident o rest ih =>
      cases c' with
      | op id' ident' o' rest' =>
          simp only [erase, Block.op.injEq] at h
          obtain ⟨rfl, rfl, hrest⟩ := h
          obtain ⟨hlen, hsame⟩ := ih hrest
          refine ⟨congrArg Nat.succ hlen, .op _ _ List.mem_cons_self (hsame.mono fun x y hxy => ?_)⟩
          exact List.mem_cons_of_mem _ hxy
      | _ => simp [erase] at h
  | fn id ident params blk body rest ihb ih =>
      cases c' with
      | fn id' ident' params' blk' body' rest' =>
          simp only [erase, Block.fn.injEq] at h
          obtain ⟨rfl, rfl, hbody, hrest⟩ := h
          obtain ⟨hlenb, hsameb⟩ := ihb hbody
          obtain ⟨hlen, hsame⟩ := ih hrest
          have hzip : (fn id ident params blk body rest).ids.zip
              (fn id' ident params blk' body' rest').ids =
              (id, id') :: (body.ids.zip body'.ids ++ rest.ids.zip rest'.ids) := by
            simp only [ids, List.zip_cons_cons, List.zip_append hlenb]
          unfold Corresponds
          rw [hzip]
          refine ⟨?_, .fn _ _ List.mem_cons_self (hsameb.mono fun x y hxy => ?_)
            (hsame.mono fun x y hxy => ?_)⟩
          · simp only [ids, List.length_cons, List.length_append, hlenb, hlen]
          · exact List.mem_cons_of_mem _ (List.mem_append_left _ hxy)
          · exact List.mem_cons_of_mem _ (List.mem_append_right _ hxy)
      | _ => simp [erase] at h
  | branch id ident cond yesBlk noBlk yes no rest ihy ihn ih =>
      cases c' with
      | branch id' ident' cond' yesBlk' noBlk' yes' no' rest' =>
          simp only [erase, Block.branch.injEq] at h
          obtain ⟨rfl, rfl, hyes, hno, hrest⟩ := h
          obtain ⟨hleny, hsamey⟩ := ihy hyes
          obtain ⟨hlenn, hsamen⟩ := ihn hno
          obtain ⟨hlen, hsame⟩ := ih hrest
          have hzip : (branch id ident cond yesBlk noBlk yes no rest).ids.zip
              (branch id' ident cond yesBlk' noBlk' yes' no' rest').ids =
              (id, id') :: (yes.ids.zip yes'.ids ++
                (no.ids.zip no'.ids ++ rest.ids.zip rest'.ids)) := by
            simp only [ids, List.zip_cons_cons, List.zip_append hleny, List.zip_append hlenn]
          unfold Corresponds
          rw [hzip]
          refine ⟨?_, .branch _ _ List.mem_cons_self (hsamey.mono fun x y hxy => ?_)
            (hsamen.mono fun x y hxy => ?_) (hsame.mono fun x y hxy => ?_)⟩
          · simp only [ids, List.length_cons, List.length_append, hleny, hlenn, hlen]
          · exact List.mem_cons_of_mem _ (List.mem_append_left _ hxy)
          · exact List.mem_cons_of_mem _ (List.mem_append_right _ (List.mem_append_left _ hxy))
          · exact List.mem_cons_of_mem _ (List.mem_append_right _ (List.mem_append_right _ hxy))
      | _ => simp [erase] at h

/-- If no record occurs twice in either code, correspondence is one-to-one. -/
theorem oneToOne_corresponds {c c' : Code} (hc : c.ids.Nodup) (hc' : c'.ids.Nodup) :
    OneToOne (c.Corresponds c') := by
  intro x x' y y' hxy hxy'
  obtain ⟨i, hi, hx⟩ := List.mem_iff_getElem.mp hxy
  obtain ⟨j, hj, hx'⟩ := List.mem_iff_getElem.mp hxy'
  rw [List.getElem_zip, Prod.mk.injEq] at hx hx'
  obtain ⟨rfl, rfl⟩ := hx
  obtain ⟨rfl, rfl⟩ := hx'
  rw [hc.getElem_inj_iff, hc'.getElem_inj_iff]

end Code

end ClosureConversion
